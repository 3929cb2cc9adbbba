import ErbslandCore.Re.EngineErrors
import ErbslandCore.Text.StringCharReader

namespace ErbslandCore.Re
open Library Text
set_option autoImplicit true

/-- The errors of a replacement: those of a search, of the expression and of its groups. -/
inductive ReplaceError where
  | search (error : MatchError)
  | format (description : String) (position : Nat)
  | parameter (message field : String)
  deriving DecidableEq

/-- The failure of a search is the failure of the replacement. -/
def fromSearch : Except MatchError α → Except ReplaceError α
  | .ok a => .ok a
  | .error e => .error (.search e)

theorem fromSearch_eq_ok {x : Except MatchError α} (h : fromSearch x = .ok a) : x = .ok a := by
  cases x with
  | error e => cases h
  | ok b =>
    cases h
    rfl

namespace StringInput

/-- The characters of a text behind a skipped part, each with the position of its first byte. -/
def charactersFrom : Nat → Nat → List UInt8 → List CharAndPosition
  | _, _, [] => []
  | position, skip + 1, _ :: text => charactersFrom (position + 1) skip text
  | position, 0, byte :: text =>
    let decoded := Utf8.decodeCharOrReplace (byte :: text)
    ⟨decoded.1, position⟩ :: charactersFrom (position + 1) (decoded.2 - 1) text

theorem charactersFrom_bounds (h : c ∈ charactersFrom position skip text) :
    position ≤ c.position ∧ c.position ≤ position + text.length := by
  induction position, skip, text using charactersFrom.induct with
  | case1 => cases h
  | case2 position skip byte text ih =>
    obtain ⟨hle, hlength⟩ := ih h
    rw [List.length_cons]
    exact ⟨by omega, by omega⟩
  | case3 position byte text decoded ih =>
    rw [charactersFrom, List.mem_cons] at h
    rw [List.length_cons]
    rcases h with rfl | h
    · exact ⟨Nat.le_refl _, Nat.le_add_right _ _⟩
    · obtain ⟨hle, hlength⟩ := ih h
      exact ⟨by omega, by omega⟩

theorem charactersFrom_sorted (position skip : Nat) (text : List UInt8) :
    (charactersFrom position skip text).Pairwise fun a b => a.position ≤ b.position := by
  induction position, skip, text using charactersFrom.induct with
  | case1 => exact .nil
  | case2 position skip byte text ih => exact ih
  | case3 position byte text decoded ih =>
    refine List.Pairwise.cons (fun c hc => ?_) ih
    exact (Nat.le_succ position).trans (charactersFrom_bounds hc).1

theorem charactersFrom_isText (h : c ∈ charactersFrom position skip text) :
    c.character ≤ 0x10FFFF := by
  induction position, skip, text using charactersFrom.induct with
  | case1 => cases h
  | case2 position skip byte text ih => exact ih h
  | case3 position byte text decoded ih =>
    rw [charactersFrom, List.mem_cons] at h
    rcases h with rfl | h
    · have hmem : decoded.1 ∈ Utf8.characters (byte :: text) := by
        rw [Utf8.characters_cons]
        exact List.mem_cons_self
      have hvalid := (Utf8.isValidUnicode_iff _).mp (Utf8.characters_valid hmem)
      change decoded.1 ≤ 0x10FFFF
      omega
    · exact ih h

theorem charactersFrom_characters (position skip : Nat) (text : List UInt8) :
    (charactersFrom position skip text).map (·.character) =
      (Utf8.decodeFrom skip text).map (·.getD Text.replacement) := by
  induction position, skip, text using charactersFrom.induct with
  | case1 => rw [Utf8.decodeFrom, charactersFrom, List.map_nil, List.map_nil]
  | case2 position skip byte text ih => exact ih
  | case3 position byte text decoded ih =>
    have hdecoded : decoded = ((Utf8.tryDecodeChar (byte :: text)).1.getD Text.replacement,
        (Utf8.tryDecodeChar (byte :: text)).2) :=
      Utf8.decodeCharOrReplace_eq _ (List.cons_ne_nil _ _)
    rw [charactersFrom, Utf8.decodeFrom, List.map_cons, List.map_cons, ih, hdecoded]
    exact congrArg (List.cons · _) (congrArg Prod.fst hdecoded)

/-- The input that reads a text from its begin. -/
def create (text : List UInt8) (acceptsNull : Bool) : Input where
  remaining := charactersFrom 0 0 text
  endPosition := text.length
  acceptsNull := acceptsNull
  isText := fun _ hc => charactersFrom_isText hc

theorem create_nullsAccepted (h : acceptsNull = true ∨ 0 ∉ Utf8.characters text) :
    NullsAccepted (create text acceptsNull) := by
  rintro c hc hzero
  rcases h with haccepted | hnot
  · exact haccepted
  · refine absurd ?_ hnot
    have hmem : c.character ∈ (charactersFrom 0 0 text).map (·.character) :=
      List.mem_map_of_mem hc
    rw [charactersFrom_characters, hzero] at hmem
    exact hmem

end StringInput

/-- The groups of a match in a text; the first one is the whole match. -/
structure StringMatch where
  groups : List CaptureRange
  text : List UInt8
  deriving DecidableEq

/-- The largest length of a text. -/
def maximumByteLength : Nat := 2 ^ 63 - 1

namespace CaptureRange

def isEmpty (range : CaptureRange) : Bool := range.beginPosition == range.endPosition

/-- The number of positions, as a difference of 64 bits. -/
def size (range : CaptureRange) : Nat :=
  (range.endPosition + 2 ^ 64 - range.beginPosition) % 2 ^ 64

end CaptureRange

namespace StringMatch
variable (m : StringMatch)

def group (groupIndex : Nat) : Except ReplaceError CaptureRange :=
  match m.groups[groupIndex]? with
  | some range => .ok range
  | none => .error (.parameter "Group index is out of bounds." "groupIndex")

def getContentForGroup (range : CaptureRange) : Except RegExError (List UInt8) := do
  requireSafety (range.beginPosition ≤ range.endPosition)
    "Capture group begin index must not exceed end index"
  requireSafety (range.endPosition ≤ m.text.length) "Capture group end index out of bounds"
  return U8String.slice m.text range.beginPosition range.endPosition

def content (groupIndex : Nat) : Except ReplaceError (List UInt8) := do
  let range ← m.group groupIndex
  fromSearch (fromRegEx (m.getContentForGroup range))

end StringMatch

namespace StringInput

/-- A match holds at least the whole match. -/
def createMatch (text : List UInt8) (groups : List CaptureRange) :
    Except RegExError StringMatch := do
  requireSafety (groups ≠ []) "Capture group list must contain at least one element (the whole string)"
  return ⟨groups, text⟩

end StringInput

/-- A part of a replacement: text that is inserted as it is, or the content of a group. -/
inductive ReplacementPart where
  | staticText (text : List UInt8)
  | captureGroup (index : Nat)
  deriving DecidableEq

namespace ReplacementPart

def length (m : StringMatch) : ReplacementPart → Except ReplaceError Nat
  | .staticText text => .ok text.length
  | .captureGroup index => do
    let range ← m.group index
    return min range.size maximumByteLength

def content (m : StringMatch) : ReplacementPart → Except ReplaceError (List UInt8)
  | .staticText text => .ok text
  | .captureGroup index => m.content index

end ReplacementPart

abbrev Replacement := List ReplacementPart

namespace Replacement

/-- The length of the replacement of a match; the sum of the lengths saturates. -/
def length (replacement : Replacement) (m : StringMatch) : Except ReplaceError Nat :=
  replacement.foldlM (fun result part => do
    let length ← part.length m
    return min (result + length) maximumByteLength) 0

def appendTo (replacement : Replacement) (text : List UInt8) (m : StringMatch) :
    Except ReplaceError (List UInt8) := do
  let replacementLength ← replacement.length m
  if replacementLength = 0 then return text
  else replacement.foldlM (fun text part => do
    let content ← part.content m
    return text ++ content) text

end Replacement

def maximumReplacementTextLength : Nat := 10000000

/-- The reader of a replacement expression, with the replacement read so far. -/
structure ReplacementParser where
  unread : List Nat
  position : Nat := 0
  currentChar : Option Nat := none
  staticText : List UInt8 := []
  replacement : Replacement := []

namespace ReplacementParser

def isAsciiWord (c : Nat) : Bool := isAsciiAlphanumeric c || c = 0x5F

/-- The position of an error is the one of the current character, if there is one. -/
def throwFormatError (p : ReplacementParser) (description : String) : Except ReplaceError α :=
  .error (.format description (if p.currentChar.isSome then p.position - 1 else p.position))

def readNext (p : ReplacementParser) : Except ReplaceError ReplacementParser :=
  if p.position > maximumReplacementTextLength then
    p.throwFormatError "The maximum replacement-expression length is 10000000 characters."
  else match p.unread with
    | [] => .ok { p with currentChar := none }
    | c :: unread => .ok { p with
      unread := unread, position := p.position + 1, currentChar := some c }

def requireMoreContent (p : ReplacementParser) : Except ReplaceError Unit :=
  if p.currentChar.isNone then p.throwFormatError "Unterminated replacement expression" else .ok ()

def addCaptureGroup (p : ReplacementParser) (index : Nat) : ReplacementParser :=
  { p with replacement := p.replacement ++ [.captureGroup index] }

/-- The static text before an expression becomes a part. -/
def addStaticText (p : ReplacementParser) : ReplacementParser :=
  if p.staticText = [] then p
  else { p with replacement := p.replacement ++ [.staticText p.staticText], staticText := [] }

def readDigits : Nat → ReplacementParser → Nat → Except ReplaceError (Nat × ReplacementParser)
  | 0, p, groupIndex => .ok (groupIndex, p)
  | fuel + 1, p, groupIndex =>
    match p.currentChar.bind (digitValue 10) with
    | none => .ok (groupIndex, p)
    | some digit =>
      if groupIndex * 10 + digit > 65535 then p.throwFormatError "Capture group index is out of range"
      else do
        let p ← p.readNext
        readDigits fuel p (groupIndex * 10 + digit)

def readWord : Nat → ReplacementParser → List Nat → Except ReplaceError (List Nat × ReplacementParser)
  | 0, p, groupName => .ok (groupName, p)
  | fuel + 1, p, groupName =>
    match p.currentChar.filter isAsciiWord with
    | none => .ok (groupName, p)
    | some c => do
      let p ← p.readNext
      readWord fuel p (groupName ++ [c])

/-- A group reference ends with a brace. -/
def readEnd (p : ReplacementParser) (expected : String) : Except ReplaceError ReplacementParser := do
  p.requireMoreContent
  if p.currentChar ≠ some 0x7D then
    p.throwFormatError ("Invalid character in replacement expression. Expected a group " ++ expected)
  else p.readNext

def parseGroupIndex (p : ReplacementParser) : Except ReplaceError ReplacementParser := do
  let (groupIndex, p) ← readDigits (p.unread.length + 1) p 0
  let p ← p.readEnd "index"
  return p.addCaptureGroup groupIndex

def parseGroupName (p : ReplacementParser) (nameMap : List Nat → Option Nat) :
    Except ReplaceError ReplacementParser := do
  let (groupName, p) ← readWord (p.unread.length + 1) p []
  let p ← p.readEnd "name"
  match nameMap groupName with
  | none => p.throwFormatError "Group name not found in this pattern"
  | some groupIndex => return p.addCaptureGroup groupIndex

def parseExpression (p : ReplacementParser) (nameMap : List Nat → Option Nat) :
    Except ReplaceError ReplacementParser :=
  if p.currentChar.any fun c => (digitValue 10 c).isSome then p.parseGroupIndex
  else if p.currentChar.any isAsciiWord then p.parseGroupName nameMap
  else if p.currentChar = some 0x7D then (p.addCaptureGroup 0).readNext
  else p.throwFormatError "Invalid character in replacement expression"

def appendStaticText (p : ReplacementParser) (c : Nat) : Except ReplaceError ReplacementParser :=
  { p with staticText := p.staticText ++ Utf8.writeChar c }.readNext

/-- One pass of the parser's loop, at a character. -/
def parseChar (p : ReplacementParser) (nameMap : List Nat → Option Nat) (c : Nat) :
    Except ReplaceError ReplacementParser :=
  if c = 0x7B then do
    let p ← p.readNext
    p.requireMoreContent
    if p.currentChar = some 0x7B then p.appendStaticText 0x7B
    else p.addStaticText.parseExpression nameMap
  else if c = 0x7D then do
    let p ← p.readNext
    if p.currentChar = some 0x7D then p.appendStaticText 0x7D
    else p.throwFormatError "Unexpected '\x7d' in replacement expression"
  else p.appendStaticText c

def parseLoop (nameMap : List Nat → Option Nat) :
    Nat → ReplacementParser → Except ReplaceError Replacement
  | 0, p => .ok p.replacement
  | fuel + 1, p =>
    match p.currentChar with
    | none => .ok p.addStaticText.replacement
    | some c => do
      let p ← p.parseChar nameMap c
      parseLoop nameMap fuel p

def parse (p : ReplacementParser) (nameMap : List Nat → Option Nat) :
    Except ReplaceError Replacement :=
  if p.unread = [] then .ok []
  else do
    let p ← p.readNext
    parseLoop nameMap (p.unread.length + 2) p

end ReplacementParser

/-- The last group with a name; letter case does not count. -/
def createCaptureGroupNameToIndexMap (caseFolded : Nat → Nat) (names : List String)
    (name : List Nat) : Option Nat :=
  let fold := fun characters : List Nat => characters.map caseFolded
  ((names.zipIdx 1).filter fun entry =>
    !entry.1.isEmpty && fold (entry.1.toList.map Char.toNat) == fold name).getLast?.map (·.2)

def Replacement.create (expression : List UInt8) (nameMap : List Nat → Option Nat) :
    Except ReplaceError Replacement :=
  ReplacementParser.parse { unread := Utf8.characters expression } nameMap

namespace EngineState

/-- The state for the next search; an empty match without progress skips a character. -/
def nextFind (state : EngineState) (caseFolded : Nat → Nat) (captureRange : CaptureRange)
    (lastPosition : Nat) : Except MatchError EngineState :=
  if captureRange.isEmpty ∧ lastPosition = state.current.position then do
    let state ← state.advanceToNext caseFolded
    return state.resetForNextFind
  else .ok state.resetForNextFind

end EngineState

namespace Engine
variable {β : Type}

/-- A pass of the loop over all matches, with the work of its consumer. -/
def visitMatch (engine : Engine) (text : List UInt8)
    (visit : β → StringMatch → Except ReplaceError β) (state : EngineState) (lastPosition : Nat)
    (result : β) : Except ReplaceError (β × Option EngineState) := do
  let captureGroups ←
    fromSearch (fromRegEx (state.createCaptureGroups engine.data.captureGroupNames))
  fromSearch (fromRegEx (requireSafety (captureGroups ≠ []) "Capture groups cannot be empty"))
  let captureRange := captureGroups.headD default
  let found ← fromSearch (fromRegEx (StringInput.createMatch text captureGroups))
  let result ← visit result found
  if state.isAtEnd then return (result, none)
  else do
    let state ← fromSearch (state.nextFind engine.unicode.caseFolded captureRange lastPosition)
    return (result, some state)

def findAllLoop (engine : Engine) (text : List UInt8)
    (visit : β → StringMatch → Except ReplaceError β) :
    Nat → EngineState → Nat → β → Option (Except ReplaceError β)
  | 0, _, _, _ => none
  | fuel + 1, state, lastPosition, result =>
    match engine.searchWithin fuel state with
    | none => none
    | some (.error e) => some (.error (.search e))
    | some (.ok (false, _)) => some (.ok result)
    | some (.ok (true, state)) =>
      match engine.visitMatch text visit state lastPosition result with
      | .error e => some (.error e)
      | .ok (result, none) => some (.ok result)
      | .ok (result, some state) =>
        findAllLoop engine text visit fuel state state.current.position result

/-- Visit all matches of a text, within some fuel. -/
def findAll (engine : Engine) (initialFlags : EngineFlags) (acceptsNull : Bool)
    (text : List UInt8) (visit : β → StringMatch → Except ReplaceError β) (fuel : Nat)
    (result : β) : Option (Except ReplaceError β) :=
  match engine.createState (StringInput.create text acceptsNull) initialFlags with
  | .error e => some (.error (.search e))
  | .ok state => findAllLoop engine text visit fuel state state.current.position result

/-- Copy the text before a match and append the replacement of the match. -/
def replaceMatch (subject : List UInt8) (replacement : Replacement)
    (copied : List UInt8 × Nat) (found : StringMatch) :
    Except ReplaceError (List UInt8 × Nat) := do
  let range ← found.group 0
  let result := if range.beginPosition > copied.2 then
      copied.1 ++ U8String.slice subject copied.2 range.beginPosition
    else copied.1
  let result ← replacement.appendTo result found
  return (result, range.endPosition)

/-- Copy the text behind the last match. -/
def copyRest (subject : List UInt8) (copied : List UInt8 × Nat) : List UInt8 :=
  if copied.2 < subject.length then
    copied.1 ++ U8String.slice subject copied.2 subject.length
  else copied.1

def replaceAll (engine : Engine) (initialFlags : EngineFlags) (acceptsNull : Bool) (fuel : Nat)
    (subject replacementExpression : List UInt8) : Option (Except ReplaceError (List UInt8)) :=
  if subject = [] ∧ replacementExpression = [] then some (.ok [])
  else
    let nameMap := createCaptureGroupNameToIndexMap engine.unicode.caseFolded
      engine.data.captureGroupNames
    match Replacement.create replacementExpression nameMap with
    | .error e => some (.error e)
    | .ok replacement =>
      (engine.findAll initialFlags acceptsNull subject (replaceMatch subject replacement) fuel
        ([], 0)).map fun result => copyRest subject <$> result

end Engine

namespace EngineState
variable {s s' : EngineState}

/-- The whole match lies between the start of the search and the next character. -/
theorem createCaptureGroups_placed (h : Placed low s) (hmatch : s.hasMatch = true)
    (hgroups : s.createCaptureGroups names = .ok groups) :
    ∀ range ∈ groups.head?, PlacedRange low s.next.position range := by
  rw [createCaptureGroups] at hgroups
  split at hgroups
  · rename_i hnone
    obtain ⟨-, -, hgroups⟩ := bind_eq_ok hgroups
    cases hgroups
    rintro range ⟨⟩
    have hdirect : s.hasDirectMatch = true := by
      rw [hasMatch, hnone] at hmatch
      exact hmatch
    obtain ⟨hlow, horder, hhigh⟩ := h.direct hnone hdirect
    exact ⟨hlow, horder.trans hhigh, .inr horder, hhigh⟩
  · rename_i m hm
    rw [CaptureGroupManager.createCaptureGroupList] at hgroups
    split_ifs at hgroups
    split at hgroups
    · cases hgroups
    · rename_i set hset
      split_ifs at hgroups
      cases hgroups
      intro range hrange
      have hplaced := h.sets m hm set (List.mem_of_getElem? hset)
      rw [List.head?_take, if_neg (Nat.succ_ne_zero _)] at hrange
      exact hplaced range hrange

/-- A search can begin at the next character. -/
structure ReadyToFind (s : EngineState) : Prop where
  placed : Placed s.next.position s
  ascending : Ascending s

theorem resetForNextFind_ready (h : Ascending s) : ReadyToFind s.resetForNextFind where
  placed := by
    refine ⟨?_, ?_, nofun⟩
    · intro m hm set hset
      rw [resetForNextFind, Option.map_eq_some_iff] at hm
      obtain ⟨m', -, rfl⟩ := hm
      cases hset
    · intro _ t ht
      rcases mem_engineThreads.mp ht with ht | ht | ht
      · cases ht
      · cases ht
      · cases ht
  ascending := ⟨h.bounds, h.sorted, h.next_le⟩

theorem nextFind_fromEngine (h : NullsAccepted s.input) (caseFolded : Nat → Nat)
    (range : CaptureRange) (lastPosition : Nat) :
    FromEngine (s.nextFind caseFolded range lastPosition) := by
  rw [nextFind]
  refine .ite (fun _ => ?_) fun _ => trivial
  obtain ⟨s', hs'⟩ := advanceToNext_ok h caseFolded
  rw [hs']
  trivial

theorem nextFind_spec (h : Placed low s) (ha : Ascending s) (hend : s.isAtEnd = false)
    (caseFolded : Nat → Nat) (range : CaptureRange) (lastPosition : Nat) :
    Yields (s.nextFind caseFolded range lastPosition) fun s' =>
      ReadyToFind s' ∧ s.next.position ≤ s'.next.position ∧ ReadsOn s.input s'.input ∧
        charactersLeft s' ≤ charactersLeft s ∧
        (range.isEmpty = true → lastPosition = s.current.position →
          charactersLeft s' < charactersLeft s) := by
  rw [nextFind]
  refine .ite (fun _ => ?_) fun hmoved => .ok ?_
  · refine (advanceToNext_spec h ha hend caseFolded).bind fun s' hs' => .ok ?_
    obtain ⟨-, hascending, hle, hleft, hreads⟩ := hs'
    exact ⟨resetForNextFind_ready hascending, hle, hreads, Nat.le_of_lt hleft,
      fun _ _ => hleft⟩
  · exact ⟨resetForNextFind_ready ha, Nat.le_refl _, .refl _, Nat.le_refl _,
      fun hempty hlast => absurd ⟨hempty, hlast⟩ hmoved⟩

/-- A new state is in front of the first character. -/
theorem create_ready (text : List UInt8) (acceptsNull : Bool) (groupCount counterCount : Nat)
    (flags : EngineFlags) :
    Yields (create (StringInput.create text acceptsNull) groupCount flags counterCount) fun s =>
      ReadyToFind s ∧ ReadsOn (StringInput.create text acceptsNull) s.input := by
  rw [create]
  refine .ite (fun _ => ?_) fun _ => trivial
  generalize hmanager : (if groupCount > 1 ∨ flags.atomicGroups = true then
    some (CaptureGroupManager.create groupCount flags.atomicGroups) else none) = manager
  have hsets : ∀ m, manager = some m → m.captureGroupSets = [] := by
    rintro m rfl
    split_ifs at hmanager
    cases hmanager
    rfl
  let start : EngineState := {
    flags := flags
    input := StringInput.create text acceptsNull
    captureGroupManager := manager
    counterCount := counterCount }
  have hstart : Ascending start := by
    refine ⟨fun c hc => ⟨Nat.zero_le _, ?_⟩, StringInput.charactersFrom_sorted 0 0 text,
      Nat.zero_le _⟩
    have hbounds := StringInput.charactersFrom_bounds hc
    exact hbounds.2.trans_eq (Nat.zero_add _)
  refine (readNext_spec hstart).bind fun s₁ h₁ => ?_
  obtain ⟨character, rfl, hascending, -⟩ := h₁
  refine (foldCRLF_spec hascending).mono fun s₂ h₂ => ?_
  obtain ⟨folded, input, rfl, hascending₂, -, hreads⟩ := h₂
  refine ⟨⟨⟨?_, ?_, nofun⟩, hascending₂⟩, (ReadsOn.tail _).trans hreads⟩
  · intro m hm set hset
    rw [hsets m hm] at hset
    cases hset
  · intro _ t ht
    rcases mem_engineThreads.mp ht with ht | ht | ht
    · cases ht
    · cases ht
    · cases ht

theorem create_fromEngine {input : Input} (h : NullsAccepted input) (groupCount counterCount : Nat)
    (flags : EngineFlags) : FromEngine (create input groupCount flags counterCount) := by
  rw [create]
  refine .ite (fun _ => ?_) fun _ => ⟨_, rfl⟩
  generalize hstart : ({
    flags := flags
    input := input
    captureGroupManager := if groupCount > 1 ∨ flags.atomicGroups = true then
      some (CaptureGroupManager.create groupCount flags.atomicGroups) else none
    counterCount := counterCount } : EngineState) = start
  obtain rfl : start.input = input := by rw [← hstart]
  obtain ⟨s₁, hs₁, hinput⟩ := readNext_ok h
  obtain ⟨s₂, hs₂⟩ := foldCRLF_ok (s := s₁) (hinput ▸ (ReadsOn.tail _).nullsAccepted h)
  change Ensures (start.readNext >>= fun state => state.foldCRLF) _ _
  rw [hs₁, ok_bind, hs₂]
  trivial

end EngineState

/-- The failure of a search; in accepted text the engine fails and not the input. -/
def SearchFails (accepted : Prop) (e : ReplaceError) : Prop :=
  ∃ error, e = .search error ∧ (accepted → IsRegExError error)

theorem fromSearch_ensures {accepted : Prop} {x : Except MatchError α} (h : Yields x post)
    (hx : accepted → FromEngine x) : Ensures (fromSearch x) post (SearchFails accepted) := by
  cases x with
  | ok a => exact h
  | error e => exact ⟨e, rfl, hx⟩

theorem requireSafety_yields {condition : Prop} [Decidable condition] (message : String) :
    Yields (fromRegEx (requireSafety condition message)) fun _ => condition := by
  apply Yields.intro
  intro u hu
  exact requireSafety_eq_ok (fromRegEx_eq_ok hu)

theorem take_append_slice {text : List UInt8} (h : start ≤ stop) :
    text.take start ++ U8String.slice text start stop = text.take stop := by
  have htake : (text.take stop).take start = text.take start := by
    rw [List.take_take, Nat.min_eq_left h]
  rw [U8String.slice, ← htake, List.take_append_drop]

namespace StringMatch
variable {accepted : Prop} {range : CaptureRange} {groups : List CaptureRange} {text : List UInt8}

theorem content_whole : Ensures (content ⟨range :: groups, text⟩ 0) (fun content =>
    range.beginPosition ≤ range.endPosition ∧
      content = U8String.slice text range.beginPosition range.endPosition) (SearchFails accepted) := by
  refine fromSearch_ensures (Yields.intro fun content hcontent => ?_) fun _ =>
    fromRegEx_fromEngine _
  obtain ⟨_, horder, hcontent⟩ := bind_eq_ok (fromRegEx_eq_ok hcontent)
  obtain ⟨_, -, hcontent⟩ := bind_eq_ok hcontent
  cases hcontent
  exact ⟨requireSafety_eq_ok horder, rfl⟩

end StringMatch

theorem CaptureRange.eq_of_size {range : CaptureRange} (hbegin : range.beginPosition < 2 ^ 63)
    (hend : range.endPosition < 2 ^ 63) (h : range.size = 0) :
    range.beginPosition = range.endPosition := by
  rw [size] at h
  omega

namespace Replacement

variable {accepted : Prop}

/-- The replacement by the whole match appends the text of the match. -/
theorem appendTo_whole (hbegin : range.beginPosition < 2 ^ 63) (hend : range.endPosition < 2 ^ 63) :
    Ensures (appendTo [.captureGroup 0] result ⟨range :: groups, text⟩) (fun result' =>
      range.beginPosition ≤ range.endPosition ∧
        result' = result ++ U8String.slice text range.beginPosition range.endPosition)
      (SearchFails accepted) := by
  have hlength : length [.captureGroup 0] ⟨range :: groups, text⟩ =
      .ok (min (0 + min range.size maximumByteLength) maximumByteLength) := rfl
  rw [appendTo, hlength, ok_bind]
  refine .ite (fun hzero => .ok ?_) fun _ => ?_
  · have hsize : range.size = 0 := by
      rw [maximumByteLength] at hzero
      omega
    have heq := CaptureRange.eq_of_size hbegin hend hsize
    refine ⟨Nat.le_of_eq heq, ?_⟩
    rw [heq, U8String.slice, List.drop_eq_nil_of_le (List.length_take_le _ _), List.append_nil]
  · rw [List.foldlM_cons]
    refine Ensures.bind (m := fun result' => range.beginPosition ≤ range.endPosition ∧
      result' = result ++ U8String.slice text range.beginPosition range.endPosition) ?_ ?_
    · refine StringMatch.content_whole.bind fun content hcontent => .ok ?_
      exact ⟨hcontent.1, congrArg (result ++ ·) hcontent.2⟩
    · intro result' hresult'
      exact hresult'

end Replacement

namespace Engine
variable {engine : Engine} {β : Type} {visit : β → StringMatch → Except ReplaceError β}
  {subject text : List UInt8} {s s' : EngineState} {accepted : Prop}

/-- The text up to a position is copied. -/
def CopiedUpTo (subject : List UInt8) (position : Nat) (copied : List UInt8 × Nat) : Prop :=
  copied = (subject.take position, position)

theorem createState_fromEngine {input : Input} (h : NullsAccepted input)
    (initialFlags : EngineFlags) : FromEngine (engine.createState input initialFlags) :=
  EngineState.create_fromEngine h _ _ _

theorem replaceMatch_whole (hlength : subject.length < 2 ^ 63)
    (hplaced : PlacedRange low high range) (hhigh : high ≤ subject.length)
    (hcopied : CopiedUpTo subject position copied) (hle : position ≤ low) :
    Ensures (replaceMatch subject [.captureGroup 0] copied ⟨range :: groups, subject⟩)
      (fun copied' => range.beginPosition ≤ range.endPosition ∧
        CopiedUpTo subject range.endPosition copied') (SearchFails accepted) := by
  obtain rfl := hcopied
  have hbegin : range.beginPosition < 2 ^ 63 :=
    lt_of_le_of_lt (hplaced.le_high.trans hhigh) hlength
  have hend : range.endPosition < 2 ^ 63 := lt_of_le_of_lt (hplaced.end_le.trans hhigh) hlength
  have hstart : position ≤ range.beginPosition := hle.trans hplaced.low_le
  have hgap : (if range.beginPosition > position then
      subject.take position ++ U8String.slice subject position range.beginPosition
      else subject.take position) = subject.take range.beginPosition := by
    split_ifs with hgap
    · exact take_append_slice hstart
    · rw [Nat.le_antisymm hstart (Nat.le_of_not_gt hgap)]
  have hgroup : StringMatch.group ⟨range :: groups, subject⟩ 0 = .ok range := rfl
  rw [replaceMatch, hgroup, ok_bind, hgap]
  refine (Replacement.appendTo_whole hbegin hend).bind fun result hresult => .ok ?_
  obtain ⟨horder, rfl⟩ := hresult
  refine ⟨horder, ?_⟩
  rw [CopiedUpTo, take_append_slice horder]

/-- The state that a pass of the loop leaves for the next search. -/
structure LeadsTo (s : EngineState) (lastPosition : Nat) (range : CaptureRange)
    (next : EngineState) : Prop where
  ready : EngineState.ReadyToFind next
  next_le : s.next.position ≤ next.next.position
  reads : ReadsOn s.input next.input
  left_le : charactersLeft next ≤ charactersLeft s
  skips : range.isEmpty = true → lastPosition = s.current.position →
    charactersLeft next < charactersLeft s

/-- What a pass of the loop finds, and what it leaves. -/
structure Visited (post : CaptureRange → β → Prop) (low : Nat) (s : EngineState)
    (lastPosition : Nat) (range : CaptureRange) (r : β × Option EngineState) : Prop where
  placed : PlacedRange low s.next.position range
  post : post range r.1
  more : ∀ next, r.2 = some next → LeadsTo s lastPosition range next

theorem visitMatch_spec (engine : Engine) {post : CaptureRange → β → Prop}
    (h : Searched low s true s') (hnulls : accepted → NullsAccepted s'.input)
    (hvisit : ∀ range groups, PlacedRange low s'.next.position range →
      Ensures (visit result ⟨range :: groups, text⟩) (post range) (SearchFails accepted))
    (lastPosition : Nat) :
    Ensures (engine.visitMatch text visit s' lastPosition result) (fun r =>
      ∃ range, Visited post low s' lastPosition range r) (SearchFails accepted) := by
  rw [visitMatch]
  refine (fromSearch_ensures (Yields.intro fun groups hgroups =>
    EngineState.createCaptureGroups_placed h.placed h.answer.symm (fromRegEx_eq_ok hgroups))
      fun _ => fromRegEx_fromEngine _).bind fun groups hplaced => ?_
  have hcheck : Ensures (fromSearch (fromRegEx (requireSafety (groups ≠ [])
      "Capture groups cannot be empty"))) (fun _ => groups ≠ []) (SearchFails accepted) :=
    fromSearch_ensures (requireSafety_yields _) fun _ => fromRegEx_fromEngine _
  refine hcheck.bind fun _ hnonempty => ?_
  obtain ⟨range, groups, rfl⟩ := List.exists_cons_of_ne_nil hnonempty
  have hrange : PlacedRange low s'.next.position range := hplaced range rfl
  have hcreate : StringInput.createMatch text (range :: groups) = .ok ⟨range :: groups, text⟩ :=
    rfl
  rw [hcreate, fromRegEx, fromSearch, ok_bind]
  refine (hvisit range groups hrange).bind fun result' hresult' => ?_
  refine .ite (fun _ => .ok ?_) fun hend => ?_
  · refine ⟨range, hrange, hresult', ?_⟩
    rintro _ ⟨⟩
  · rw [Bool.not_eq_true] at hend
    refine (fromSearch_ensures (EngineState.nextFind_spec h.placed h.ascending hend
      engine.unicode.caseFolded range lastPosition) fun ha =>
        EngineState.nextFind_fromEngine (hnulls ha) _ _ _).bind fun next hnext => .ok ?_
    obtain ⟨hready, hle, hreads, hleft, hskips⟩ := hnext
    refine ⟨range, hrange, hresult', ?_⟩
    rintro _ ⟨⟩
    exact ⟨hready, hle, hreads, hleft, hskips⟩

/-- A loop over the matches that has copied a text up to a position. -/
structure Copying (subject : List UInt8) (acceptsNull : Bool) (s : EngineState) (position : Nat)
    (copied : List UInt8 × Nat) : Prop where
  ready : EngineState.ReadyToFind s
  reads : ReadsOn (StringInput.create subject acceptsNull) s.input
  copied : CopiedUpTo subject position copied
  le : position ≤ s.next.position

/-- What a pass of the loop copies, and the state it leaves. -/
structure CopiedFurther (subject : List UInt8) (acceptsNull : Bool) (s : EngineState)
    (r : (List UInt8 × Nat) × Option EngineState) : Prop where
  copied : ∃ position ≤ subject.length, CopiedUpTo subject position r.1
  more : ∀ next, r.2 = some next → (∃ position, Copying subject acceptsNull next position r.1) ∧
    charactersLeft next < charactersLeft s

/-- The failure of a search in a text. -/
abbrev SearchFailsIn (subject : List UInt8) (acceptsNull : Bool) : ReplaceError → Prop :=
  SearchFails (NullsAccepted (StringInput.create subject acceptsNull))

theorem visitMatch_copies (engine : Engine) (hlength : subject.length < 2 ^ 63)
    (h : Copying subject acceptsNull s position copied)
    (hs : Searched s.next.position s true s') :
    Ensures (engine.visitMatch subject (replaceMatch subject [.captureGroup 0]) s'
      s.current.position copied) (CopiedFurther subject acceptsNull s)
      (SearchFailsIn subject acceptsNull) := by
  have hreads := h.reads.trans hs.progresses.reads
  have hhigh : s'.next.position ≤ subject.length :=
    hs.ascending.next_le.trans_eq hreads.endPosition
  refine (visitMatch_spec engine hs hreads.nullsAccepted (fun range groups hplaced =>
    replaceMatch_whole hlength hplaced hhigh h.copied h.le) s.current.position).mono fun r hr => ?_
  obtain ⟨range, hvisited⟩ := hr
  have hplaced := hvisited.placed
  obtain ⟨horder, hcopied⟩ := hvisited.post
  refine ⟨⟨range.endPosition, hplaced.end_le.trans hhigh, hcopied⟩, fun next hnext => ?_⟩
  have hleads := hvisited.more next hnext
  refine ⟨⟨range.endPosition, hleads.ready, hreads.trans hleads.reads, hcopied,
    hplaced.end_le.trans hleads.next_le⟩, ?_⟩
  rcases hs.progresses.moved with hlt | ⟨hsame, hposition, hcurrent⟩
  · exact lt_of_le_of_lt hleads.left_le hlt
  · -- without progress the match is empty, and the loop skips a character
    have hempty : range.isEmpty = true := by
      have hlow := hplaced.low_le
      have hend_le := hplaced.end_le
      rw [CaptureRange.isEmpty, beq_iff_eq]
      omega
    exact (hleads.skips hempty hcurrent.symm).trans_eq hsame

theorem exists_more (h : fuel ≥ least + 1) : ∃ more, fuel = more + 1 ∧ least ≤ more := by
  obtain ⟨more, rfl⟩ := Nat.exists_eq_add_of_le' h
  exact ⟨more + least, rfl, Nat.le_add_left _ _⟩

/-- The loop over the matches ends, and it has copied the text up to a position. -/
theorem findAllLoop_copies (engine : Engine) (hlength : subject.length < 2 ^ 63)
    (h : Copying subject acceptsNull s position copied) :
    ∃ least result, (∀ fuel ≥ least, engine.findAllLoop subject
        (replaceMatch subject [.captureGroup 0]) fuel s s.current.position copied = some result) ∧
      Ensures result (fun copied' => ∃ position ≤ subject.length,
        CopiedUpTo subject position copied') (SearchFailsIn subject acceptsNull) := by
  induction hleft : charactersLeft s using Nat.strong_induction_on
    generalizing s position copied with
  | _ left ih =>
    obtain ⟨steps, answer, hsearch, hanswer⟩ := searchWithin_ends engine
      h.ready.placed h.ready.ascending (Nat.le_refl _)
    cases answer with
    | error e =>
      have hfails (hn : NullsAccepted (StringInput.create subject acceptsNull)) : IsRegExError e :=
        searchWithin_failsInEngine h.ready.placed h.ready.ascending (Nat.le_refl _)
          (h.reads.nullsAccepted hn) (hsearch steps (Nat.le_refl _))
      refine ⟨steps + 1, .error (.search e), fun fuel hle => ?_, ⟨e, rfl, hfails⟩⟩
      obtain ⟨more, rfl, hmore⟩ := exists_more hle
      rw [findAllLoop, hsearch more hmore]
    | ok answer =>
      obtain ⟨hasMatch, s'⟩ := answer
      cases hasMatch with
      | false =>
        refine ⟨steps + 1, .ok copied, fun fuel hle => ?_, ⟨position, ?_, h.copied⟩⟩
        · obtain ⟨more, rfl, hmore⟩ := exists_more hle
          rw [findAllLoop, hsearch more hmore]
        · exact (h.le.trans h.ready.ascending.next_le).trans_eq h.reads.endPosition
      | true =>
        have hvisit := visitMatch_copies engine hlength h hanswer
        cases hresult : engine.visitMatch subject (replaceMatch subject [.captureGroup 0]) s'
          s.current.position copied with
        | error e =>
          refine ⟨steps + 1, .error e, fun fuel hle => ?_, hvisit.of_eq_error hresult⟩
          obtain ⟨more, rfl, hmore⟩ := exists_more hle
          rw [findAllLoop, hsearch more hmore]
          simp only [hresult]
        | ok r =>
          obtain ⟨copied', next⟩ := r
          obtain ⟨hcopied', hnext⟩ := hvisit.of_eq_ok hresult
          cases next with
          | none =>
            refine ⟨steps + 1, .ok copied', fun fuel hle => ?_, hcopied'⟩
            obtain ⟨more, rfl, hmore⟩ := exists_more hle
            rw [findAllLoop, hsearch more hmore]
            simp only [hresult]
          | some next =>
            obtain ⟨⟨position', hcopying⟩, hless⟩ := hnext next rfl
            rw [hleft] at hless
            obtain ⟨least, result, hloop, hcopies⟩ := ih _ hless hcopying rfl
            refine ⟨max steps least + 1, result, fun fuel hle => ?_, hcopies⟩
            obtain ⟨more, rfl, hmore⟩ := exists_more hle
            rw [findAllLoop, hsearch more ((le_max_left _ _).trans hmore)]
            simp only [hresult]
            exact hloop more ((le_max_right _ _).trans hmore)

theorem copyRest_eq (hcopied : CopiedUpTo subject position copied) (hle : position ≤ subject.length) :
    copyRest subject copied = subject := by
  obtain rfl := hcopied
  rw [copyRest]
  split_ifs with hlt
  · rw [take_append_slice hle, List.take_length]
  · exact List.take_of_length_le (Nat.le_of_not_lt hlt)

/-- Collect the ranges of the whole matches. -/
def collectRange (ranges : List CaptureRange) (found : StringMatch) :
    Except ReplaceError (List CaptureRange) := do
  let range ← found.group 0
  return ranges ++ [range]

/-- A match ends before the next one begins. -/
def Precedes (a b : CaptureRange) : Prop :=
  a.beginPosition ≤ b.beginPosition ∧ a.endPosition ≤ b.beginPosition

/-- Matches in order, all of them before a position. -/
structure InOrder (position : Nat) (ranges : List CaptureRange) : Prop where
  precedes : ranges.Pairwise Precedes
  before : ∀ range ∈ ranges, range.beginPosition ≤ position ∧ range.endPosition ≤ position

theorem InOrder.mono (h : InOrder position ranges) (hle : position ≤ position') :
    InOrder position' ranges :=
  ⟨h.precedes, fun range hrange => ⟨(h.before range hrange).1.trans hle,
    (h.before range hrange).2.trans hle⟩⟩

theorem InOrder.append (h : InOrder low ranges) (hplaced : PlacedRange low high range) :
    InOrder high (ranges ++ [range]) where
  precedes := by
    refine List.pairwise_append.mpr ⟨h.precedes, List.pairwise_singleton _ _, ?_⟩
    intro a ha b hb
    rw [List.mem_singleton.mp hb]
    obtain ⟨hbegin, hend⟩ := h.before a ha
    exact ⟨hbegin.trans hplaced.low_le, hend.trans hplaced.low_le⟩
  before := by
    intro a ha
    rcases List.mem_append.mp ha with ha | ha
    · have hlow := hplaced.low_le.trans hplaced.le_high
      obtain ⟨hbegin, hend⟩ := h.before a ha
      exact ⟨hbegin.trans hlow, hend.trans hlow⟩
    · rw [List.mem_singleton.mp ha]
      exact ⟨hplaced.le_high, hplaced.end_le⟩

theorem findAllLoop_inOrder (hready : EngineState.ReadyToFind s)
    (hranges : InOrder s.next.position ranges)
    (h : engine.findAllLoop text collectRange fuel s lastPosition ranges = some (.ok ranges')) :
    InOrder s.input.endPosition ranges' := by
  induction fuel generalizing s lastPosition ranges with
  | zero => cases h
  | succ fuel ih =>
    rw [findAllLoop] at h
    split at h
    · cases h
    · cases h
    · cases h
      exact hranges.mono hready.ascending.next_le
    · rename_i s' hsearch
      have hsearched : Searched s.next.position s true s' :=
        searchWithin_searched hready.placed hready.ascending (Nat.le_refl _) hsearch
      have collects (range : CaptureRange) (groups : List CaptureRange)
          (_ : PlacedRange s.next.position s'.next.position range) :
          Ensures (collectRange ranges ⟨range :: groups, text⟩)
            (fun ranges' => ranges' = ranges ++ [range]) (SearchFails False) := rfl
      have hvisit := visitMatch_spec engine hsearched False.elim collects lastPosition
      have hend := hsearched.progresses.reads.endPosition
      split at h
      · cases h
      · rename_i hresult
        cases h
        obtain ⟨range, hvisited⟩ := hvisit.of_eq_ok hresult
        obtain rfl := hvisited.post
        rw [← hend]
        exact (hranges.append hvisited.placed).mono hsearched.ascending.next_le
      · rename_i next hresult
        obtain ⟨range, hvisited⟩ := hvisit.of_eq_ok hresult
        obtain rfl := hvisited.post
        have hleads := hvisited.more next rfl
        rw [← hend, ← hleads.reads.endPosition]
        refine ih hleads.ready ?_ h
        exact (hranges.append hvisited.placed).mono hleads.next_le

/-- The matches of a text are reported in order and do not overlap. -/
theorem findAll_inOrder
    (h : engine.findAll initialFlags acceptsNull text collectRange fuel [] = some (.ok ranges)) :
    InOrder text.length ranges := by
  have hcreate : Yields (engine.createState (StringInput.create text acceptsNull) initialFlags)
      fun s => EngineState.ReadyToFind s ∧ ReadsOn (StringInput.create text acceptsNull) s.input :=
    EngineState.create_ready text acceptsNull _ _ _
  rw [findAll] at h
  split at h
  · cases h
  · rename_i s hstate
    obtain ⟨hready, hreads⟩ := hcreate.of_eq_ok hstate
    have hinOrder := findAllLoop_inOrder hready ⟨.nil, nofun⟩ h
    rw [hreads.endPosition] at hinOrder
    exact hinOrder

/-- The expression that inserts the whole match. -/
def wholeMatchExpression : List UInt8 := [0x7B, 0x7D]

theorem create_wholeMatch (nameMap : List Nat → Option Nat) :
    Replacement.create wholeMatchExpression nameMap = .ok [.captureGroup 0] := rfl

/-- Replacing every match by itself ends; the search fails, or the result is the subject. -/
theorem replaceAll_copies (engine : Engine) (initialFlags : EngineFlags) (acceptsNull : Bool)
    (subject : List UInt8) (hlength : subject.length < 2 ^ 63) :
    ∃ least result, (∀ fuel ≥ least,
        engine.replaceAll initialFlags acceptsNull fuel subject wholeMatchExpression =
          some result) ∧
      (result = .ok subject ∨ ∃ error, result = .error (.search error) ∧
        (acceptsNull = true ∨ 0 ∉ Utf8.characters subject → IsRegExError error)) := by
  have hnot : ¬ (subject = [] ∧ wholeMatchExpression = []) := nofun
  have hcreate : Yields (engine.createState (StringInput.create subject acceptsNull) initialFlags)
      fun s => EngineState.ReadyToFind s ∧
        ReadsOn (StringInput.create subject acceptsNull) s.input :=
    EngineState.create_ready subject acceptsNull _ _ _
  cases hstate : engine.createState (StringInput.create subject acceptsNull) initialFlags with
  | error e =>
    refine ⟨0, .error (.search e), fun fuel _ => ?_, .inr ⟨e, rfl, fun haccepted => ?_⟩⟩
    · rw [replaceAll, if_neg hnot]
      simp only [create_wholeMatch, findAll, hstate]
      rfl
    · exact (createState_fromEngine (StringInput.create_nullsAccepted haccepted)
        initialFlags).of_eq_error hstate
  | ok s =>
    obtain ⟨hready, hreads⟩ := hcreate.of_eq_ok hstate
    have hcopying : Copying subject acceptsNull s 0 ([], 0) :=
      ⟨hready, hreads, rfl, Nat.zero_le _⟩
    obtain ⟨least, result, hloop, hcopies⟩ := findAllLoop_copies engine hlength hcopying
    refine ⟨least, copyRest subject <$> result, fun fuel hle => ?_, ?_⟩
    · rw [replaceAll, if_neg hnot]
      simp only [create_wholeMatch, findAll, hstate]
      rw [hloop fuel hle]
      rfl
    · cases result with
      | error e =>
        obtain ⟨error, rfl, hfails⟩ := hcopies
        exact .inr ⟨error, rfl, fun h => hfails (StringInput.create_nullsAccepted h)⟩
      | ok copied =>
        obtain ⟨position, hle, hcopied⟩ := hcopies
        exact .inl (congrArg Except.ok (copyRest_eq hcopied hle))

/-- Every match is copied once and in its place, and so is the text around it. -/
theorem replaceAll_wholeMatch (engine : Engine) (initialFlags : EngineFlags) (acceptsNull : Bool)
    (subject : List UInt8) (hlength : subject.length < 2 ^ 63) :
    (∃ least result, (∀ fuel ≥ least,
        engine.replaceAll initialFlags acceptsNull fuel subject wholeMatchExpression =
          some result) ∧
      (result = .ok subject ∨ ∃ error, result = .error (.search error) ∧
        (acceptsNull = true ∨ 0 ∉ Utf8.characters subject → IsRegExError error))) ∧
    ∀ fuel ranges,
      engine.findAll initialFlags acceptsNull subject collectRange fuel [] = some (.ok ranges) →
        InOrder subject.length ranges :=
  ⟨replaceAll_copies engine initialFlags acceptsNull subject hlength,
    fun _ _ h => findAll_inOrder h⟩

/-- The engine of the pattern with the single letter `a`. -/
def letterEngine : Engine where
  data := { program := [0x01000061, 0x83000000], counterCount := 0 }
  unicode := { caseFolded := id, categoryMask := fun _ => 0 }

theorem replaceAll_wholeMatch_letter :
    (∃ least result, (∀ fuel ≥ least,
        letterEngine.replaceAll {} false fuel [0x62, 0x61] wholeMatchExpression = some result) ∧
      (result = .ok [0x62, 0x61] ∨ ∃ error, result = .error (.search error) ∧
        (false = true ∨ 0 ∉ Utf8.characters [0x62, 0x61] → IsRegExError error))) ∧
    ∀ fuel ranges,
      letterEngine.findAll {} false [0x62, 0x61] collectRange fuel [] = some (.ok ranges) →
        InOrder 2 ranges :=
  replaceAll_wholeMatch letterEngine {} false [0x62, 0x61] (by decide)

/-- A null character that is not accepted ends the replacement with an error. -/
theorem replaceAll_null : ¬ ∃ fuel,
    letterEngine.replaceAll {} false fuel [0] wholeMatchExpression = some (.ok [0]) := by
  rintro ⟨fuel, h⟩
  have herror : letterEngine.replaceAll {} false fuel [0] wholeMatchExpression =
      some (.error (.search (.encoding
        "Null characters are disabled in regular expression input."))) := rfl
  rw [herror] at h
  cases h

end Engine

end ErbslandCore.Re
