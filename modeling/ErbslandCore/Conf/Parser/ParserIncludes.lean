import Mathlib.Data.List.ReduceOption
import ErbslandCore.Conf.Parser.Parser
import ErbslandCore.Library.Machine
import ErbslandCore.Library.Nesting

namespace ErbslandCore.Conf
open Library Library.Nesting StateTransition
set_option autoImplicit true

/-- Reading on does not change which document a context is for. -/
structure ParserContext.Continues (context context' : ParserContext) : Prop where
  includeLevel : context'.includeLevel = context.includeLevel
  source : context'.source = context.source
  parent : context'.parentSourceIdentifier = context.parentSourceIdentifier

/-- A context that was pushed by an include of another one. -/
structure ParserContext.IncludedBy (context parent : ParserContext) : Prop where
  includeLevel : context.includeLevel = parent.includeLevel + 1
  parent : context.parentSourceIdentifier = some parent.sourceIdentifier
  bound : context.includeLevel < maxDocumentNesting

namespace ParserContext

theorem Continues.refl (context : ParserContext) : context.Continues context := ⟨rfl, rfl, rfl⟩

theorem Continues.trans (h : Continues context context') (h' : Continues context' context'') :
    Continues context context'' :=
  ⟨h'.includeLevel.trans h.includeLevel, h'.source.trans h.source, h'.parent.trans h.parent⟩

theorem initializeContext_eq (h : initializeContext context = .ok context') :
    context' = { context with hasNextAssignment := true, isInitialized := true } := by
  rw [initializeContext] at h
  split_ifs at h
  obtain ⟨_, _, h⟩ := bind_eq_ok h
  exact (Except.ok.inj h).symm

end ParserContext

namespace Parser

section
variable {settings : ParserSettings} {steps : Nat} {context context' : ParserContext}
  {outer contextStack : List ParserContext} {parser parser' : Parser} {location : Location}

theorem initializeCurrentContext_continues
    (h : initializeCurrentContext settings steps context outer = .ok context') :
    context.Continues context' ∧ context'.assignments = context.assignments := by
  rw [initializeCurrentContext] at h
  split_ifs at h
  · cases h
    exact ⟨⟨rfl, rfl, rfl⟩, rfl⟩
  · obtain ⟨_, _, h⟩ := bind_eq_ok h
    rw [ParserContext.initializeContext_eq h]
    exact ⟨⟨rfl, rfl, rfl⟩, rfl⟩

theorem nextAssignment_continues (h : context.nextAssignment = .ok (assignment, context')) :
    context.Continues context' ∧ context'.assignments.length < context.assignments.length := by
  rw [ParserContext.nextAssignment] at h
  split_ifs at h
  cases hassignments : context.assignments with
  | nil =>
    rw [hassignments] at h
    cases h
  | cons next rest =>
    rw [hassignments] at h
    cases next with
    | error error => cases h
    | ok assignment =>
      cases h
      exact ⟨⟨rfl, rfl, rfl⟩, Nat.lt_succ_self _⟩

theorem addSourceContext_opens {source : Option Source} {level : Nat} {parent : SourceIdentifier}
    (h : addSourceContext level parent location contextStack source = .ok contextStack') :
    ∃ added, contextStack' = added :: contextStack ∧ added.includeLevel = level ∧
      added.parentSourceIdentifier = some parent := by
  cases source with
  | none => cases h
  | some source =>
    rw [addSourceContext] at h
    split_ifs at h
    cases h
    exact ⟨_, rfl, rfl, rfl⟩

theorem foldlM_addSourceContext_opens {sources : List (Option Source)} {level : Nat}
    {parent : SourceIdentifier} (h : sources.foldlM (addSourceContext level parent location)
      contextStack = .ok contextStack') :
    ∃ opened, contextStack' = opened ++ contextStack ∧
      ∀ added ∈ opened, added.includeLevel = level ∧ added.parentSourceIdentifier = some parent := by
  induction sources generalizing contextStack with
  | nil =>
    cases h
    exact ⟨[], rfl, fun _ h => absurd h List.not_mem_nil⟩
  | cons source sources ih =>
    rw [List.foldlM_cons] at h
    obtain ⟨stack, hadd, hrest⟩ := bind_eq_ok h
    obtain ⟨added, rfl, hadded⟩ := addSourceContext_opens hadd
    obtain ⟨opened, rfl, hopened⟩ := ih hrest
    refine ⟨opened ++ [added], by rw [List.append_assoc]; rfl, fun context hcontext => ?_⟩
    rcases List.mem_append.1 hcontext with hcontext | hcontext
    · exact hopened context hcontext
    · rw [List.mem_singleton.1 hcontext]
      exact hadded

/-- What a turn for an assignment leaves on the stack. -/
def Opens (context : ParserContext) (outer contextStack : List ParserContext) : Prop :=
  ∃ context' opened, contextStack = opened ++ context' :: outer ∧ context.Continues context' ∧
    context'.assignments = context.assignments ∧ ∀ added ∈ opened, added.IncludedBy context

theorem opens_self : Opens context outer (context :: outer) :=
  ⟨context, [], rfl, .refl context, rfl, fun _ h => absurd h List.not_mem_nil⟩

theorem resolveInclude_lt
    (h : resolveInclude settings steps context text location = .ok sourceList) :
    context.includeLevel + 1 < maxDocumentNesting := by
  rw [resolveInclude] at h
  split_ifs at h with hlimit
  exact Nat.not_le.1 hlimit

theorem processMetaValue_opens (h : processMetaValue settings steps context outer namePath text
    location = .ok contextStack) : Opens context outer contextStack := by
  rw [processMetaValue] at h
  split_ifs at h
  · cases h
    exact ⟨_, [], rfl, ⟨rfl, rfl, rfl⟩, rfl, fun _ h => absurd h List.not_mem_nil⟩
  · obtain ⟨sourceList, hresolve, h⟩ := bind_eq_ok h
    have hlt := resolveInclude_lt hresolve
    obtain ⟨opened, rfl, hopened⟩ := foldlM_addSourceContext_opens h
    refine ⟨context, opened, rfl, .refl context, rfl, fun added hadded => ?_⟩
    obtain ⟨hlevel, hparent⟩ := hopened added hadded
    exact ⟨hlevel, hparent, hlevel ▸ hlt⟩
  · cases h
    exact opens_self

theorem processAssignment_opens {assignment : Assignment}
    (h : processAssignment settings parser context outer assignment = .ok parser') :
    Opens context outer parser'.contextStack := by
  cases assignment with
  | endOfDocument =>
    cases h
    exact opens_self
  | sectionMap namePath location =>
    obtain ⟨_, _, h⟩ := bind_eq_ok h
    cases h
    exact opens_self
  | sectionList namePath location =>
    obtain ⟨_, _, h⟩ := bind_eq_ok h
    cases h
    exact opens_self
  | value namePath value location =>
    obtain ⟨_, _, h⟩ := bind_eq_ok h
    cases h
    exact opens_self
  | metaValue namePath text location =>
    obtain ⟨stack, hmeta, h⟩ := bind_eq_ok h
    cases h
    exact processMetaValue_opens hmeta

/-- A turn leaves the context on top, or takes an assignment from it and opens other contexts. -/
theorem processContext_cases (h : processContext settings parser context outer = .ok parser') :
    parser'.contextStack = outer ∨ ∃ context' opened,
      parser'.contextStack = opened ++ context' :: outer ∧ context.Continues context' ∧
        context'.assignments.length < context.assignments.length ∧
          ∀ added ∈ opened, added.IncludedBy context := by
  rw [processContext] at h
  obtain ⟨c₁, hinitialize, h⟩ := bind_eq_ok h
  obtain ⟨hcontinues, hassignments⟩ := initializeCurrentContext_continues hinitialize
  split_ifs at h
  · right
    obtain ⟨⟨assignment, c₂⟩, hnext, h⟩ := bind_eq_ok h
    obtain ⟨hcontinues', hless⟩ := nextAssignment_continues hnext
    obtain ⟨c₃, opened, hstack, hcontinues'', hsame, hopened⟩ := processAssignment_opens h
    have hfirst := hcontinues.trans hcontinues'
    refine ⟨c₃, opened, hstack, hfirst.trans hcontinues'', ?_, fun added hadded => ?_⟩
    · rw [hsame, ← hassignments]
      exact hless
    · obtain ⟨hlevel, hparent, hbound⟩ := hopened added hadded
      rw [hfirst.includeLevel] at hlevel
      rw [ParserContext.sourceIdentifier, hfirst.source] at hparent
      exact ⟨hlevel, hparent, hbound⟩
  · left
    obtain ⟨_, _, h⟩ := bind_eq_ok h
    obtain ⟨_, _, h⟩ := bind_eq_ok h
    cases h
    rfl

end

/-- The contexts of one level were included by the current context of the level around it. -/
def Nested : List (Level ParserContext) → Prop
  | [] => True
  | level :: outer =>
    (∀ context ∈ level.current :: level.pending, context.includeLevel = outer.length ∧
      context.includeLevel < maxDocumentNesting ∧ context.parentSourceIdentifier =
        outer.head?.map fun parent => parent.current.sourceIdentifier) ∧ Nested outer

theorem Nested.length_le (h : Nested levels) : levels.length ≤ maxDocumentNesting := by
  cases levels with
  | nil => exact Nat.zero_le _
  | cons level outer =>
    obtain ⟨hlevel, hbound, _⟩ := h.1 level.current List.mem_cons_self
    rw [hlevel] at hbound
    exact hbound

theorem Nested.replace {pending : List ParserContext} (h : Nested (⟨context, pending⟩ :: outer))
    (hc : context.Continues context') : Nested (⟨context', pending⟩ :: outer) := by
  refine ⟨fun other hother => ?_, h.2⟩
  rcases List.mem_cons.1 hother with rfl | hother
  · rw [hc.includeLevel, hc.parent]
    exact h.1 context List.mem_cons_self
  · exact h.1 other (List.mem_cons_of_mem _ hother)

theorem Nested.descend {pending opened : List ParserContext}
    (h : Nested (⟨context, pending⟩ :: outer))
    (hopened : ∀ added ∈ opened, added.IncludedBy context) :
    Nested (Nesting.descend opened (⟨context, pending⟩ :: outer)) := by
  cases opened with
  | nil => exact h
  | cons first rest =>
    refine ⟨fun added hadded => ?_, h⟩
    obtain ⟨hlevel, hparent, hbound⟩ := hopened added hadded
    rw [(h.1 context List.mem_cons_self).1] at hlevel
    exact ⟨hlevel, hbound, hparent⟩

theorem Nested.finish (h : Nested (level :: outer)) : Nested (Nesting.finish (level :: outer)) := by
  obtain ⟨current, pending⟩ := level
  cases pending with
  | nil => exact h.2
  | cons next pending =>
    exact ⟨fun other hother => h.1 other (List.mem_cons_of_mem _ hother), h.2⟩

/-- The stack of a parser is a nesting of includes. -/
def IsNested (contextStack : List ParserContext) : Prop :=
  ∃ levels, flatten levels = contextStack ∧ Nested levels

theorem isNested_start (documentSource : Source) : IsNested (start documentSource).contextStack := by
  refine ⟨[⟨ParserContext.create 0 documentSource, []⟩], rfl, fun context hcontext => ?_, trivial⟩
  rw [List.mem_singleton.1 hcontext]
  exact ⟨rfl, Nat.zero_lt_succ 4, rfl⟩

theorem IsNested.processContext {context : ParserContext} {outer : List ParserContext}
    {parser' : Parser} (h : IsNested (context :: outer))
    (hturn : processContext settings parser context outer = .ok parser') :
    IsNested parser'.contextStack := by
  obtain ⟨levels, hflat, hnested⟩ := h
  cases levels with
  | nil => cases hflat
  | cons level below =>
    obtain ⟨current, pending⟩ := level
    cases hflat
    rcases processContext_cases hturn with hstack | ⟨c, opened, hstack, hcontinues, _, hopened⟩
    · refine ⟨finish (⟨current, pending⟩ :: below), ?_, hnested.finish⟩
      rw [flatten_finish, hstack]
    · refine ⟨Nesting.descend opened (⟨c, pending⟩ :: below), ?_,
        (hnested.replace hcontinues).descend fun added hadded => ?_⟩
      · rw [flatten_descend, hstack]
        rfl
      · obtain ⟨hlevel, hparent, hbound⟩ := hopened added hadded
        refine ⟨hlevel.trans (congrArg (· + 1) hcontinues.includeLevel.symm), ?_, hbound⟩
        rw [hparent, ParserContext.sourceIdentifier, ParserContext.sourceIdentifier,
          hcontinues.source]

/-- While a parser runs, its stack is a nesting of includes. -/
def StateNested (state : ParseState) : Prop :=
  ∀ parser, state = .running parser → IsNested parser.contextStack

theorem StateNested.step (h : StateNested state) (hstep : parse settings state = some state') :
    StateNested state' := by
  rintro parser' rfl
  cases state with
  | finished => cases hstep
  | failed => cases hstep
  | running parser =>
    have hold := h parser rfl
    rw [parse] at hstep
    cases hcontexts : parser.contextStack with
    | nil =>
      rw [hcontexts] at hstep
      cases hstep
    | cons context outer =>
      rw [hcontexts] at hstep hold
      cases hturn : processContext settings parser context outer with
      | error error =>
        simp only [hturn] at hstep
        cases hstep
      | ok next =>
        simp only [hturn] at hstep
        cases hstep
        exact hold.processContext hturn

theorem isNested_of_reaches
    (h : Reaches (parse settings) (.running (start documentSource)) (.running parser)) :
    IsNested parser.contextStack := by
  have hstart : StateNested (.running (start documentSource)) := by
    rintro _ ⟨⟩
    exact isNested_start documentSource
  exact Machine.reaches_invariant (fun _ _ hstate hstep => hstate.step hstep) h hstart parser rfl

/-- The document that is read and the documents through which it was included. -/
def includeChain : List ParserContext → List ParserContext
  | [] => []
  | context :: outer => context :: (includeChain outer).filter fun other =>
      other.includeLevel < context.includeLevel

theorem Nested.includeLevel_lt (h : Nested levels) :
    ∀ context ∈ levels.map Level.current, context.includeLevel < levels.length := by
  induction levels with
  | nil => exact fun _ h => absurd h List.not_mem_nil
  | cons level outer ih =>
    intro context hcontext
    rcases List.mem_cons.1 hcontext with rfl | hcontext
    · rw [(h.1 level.current List.mem_cons_self).1]
      exact Nat.lt_succ_self _
    · exact Nat.lt_succ_of_lt (ih h.2 context hcontext)

theorem Nested.includeChain_eq (h : Nested levels) :
    includeChain (flatten levels) = levels.map Level.current := by
  induction levels with
  | nil => rfl
  | cons level outer ih =>
    obtain ⟨current, pending⟩ := level
    have hkept : ∀ context : ParserContext, context.includeLevel = outer.length →
        (outer.map Level.current).filter (fun other => other.includeLevel < context.includeLevel) =
          outer.map Level.current := by
      intro context hlevel
      apply List.filter_eq_self.2
      intro other hother
      rw [hlevel]
      exact decide_eq_true (h.2.includeLevel_lt other hother)
    induction pending generalizing current with
    | nil =>
      rw [flatten, includeChain, List.nil_append, ih h.2,
        hkept current (h.1 current List.mem_cons_self).1]
      rfl
    | cons next pending ihp =>
      have hcurrent := (h.1 current List.mem_cons_self).1
      have hnext := (h.1 next (List.mem_cons_of_mem _ List.mem_cons_self)).1
      have hrest := ihp next ⟨fun other hother => h.1 other (List.mem_cons_of_mem _ hother), h.2⟩
      rw [flatten] at hrest
      rw [flatten, includeChain, List.cons_append, hrest, List.map_cons, List.filter_cons, if_neg,
        hkept current hcurrent]
      · rfl
      · rw [hcurrent, hnext, decide_eq_true_iff]
        exact Nat.lt_irrefl _

theorem Nested.isChain (h : Nested levels) :
    (levels.map Level.current).IsChain ParserContext.IncludedBy := by
  induction levels with
  | nil => exact .nil
  | cons level outer ih =>
    cases outer with
    | nil => exact .singleton _
    | cons level' outer =>
      obtain ⟨hlevel, hbound, hparent⟩ := h.1 level.current List.mem_cons_self
      apply List.IsChain.cons_cons _ (ih h.2)
      refine ⟨?_, hparent, hbound⟩
      rw [hlevel, (h.2.1 level'.current List.mem_cons_self).1]
      rfl

/-- The sources of an include that are added: all, or those after the last null source. -/
def addedSources (sourceList : List (Option Source)) : List Source :=
  (sourceList.reverse.takeWhile Option.isSome).reduceOption

/-- No document stands on the stack or comes twice. -/
def AreNew (contextStack : List ParserContext) (sources : List Source) : Prop :=
  (sources.map Source.identifier).Nodup ∧
    ∀ source ∈ sources, source.identifier ∉ contextStack.map ParserContext.sourceIdentifier

theorem loopDetected_ne : (.conf ⟨.syntaxError, "The source resolver returned a null source.",
    location, []⟩ : Error) ≠ loopDetected location := by
  intro h
  have hmessage : "The source resolver returned a null source." =
      "An included document is in the list of parent documents (loop detected)." :=
    congrArg ConfError.message (Error.conf.inj h)
  exact absurd hmessage (by decide)

theorem foldlM_addSourceContext_loop (sources : List (Option Source)) (level : Nat)
    (parent : SourceIdentifier) (location : Location) (contextStack : List ParserContext) :
    sources.foldlM (addSourceContext level parent location) contextStack =
        .error (loopDetected location) ↔
      ¬ AreNew contextStack (sources.takeWhile Option.isSome).reduceOption := by
  induction sources generalizing contextStack with
  | nil => exact ⟨nofun, fun h => absurd ⟨List.nodup_nil, fun _ h => absurd h List.not_mem_nil⟩ h⟩
  | cons source sources ih =>
    rw [List.foldlM_cons]
    cases source with
    | none =>
      refine ⟨fun h => absurd (Except.error.inj h) loopDetected_ne, fun h => absurd ?_ h⟩
      exact ⟨List.nodup_nil, fun _ h => absurd h List.not_mem_nil⟩
    | some source =>
      rw [List.takeWhile_cons_of_pos rfl, List.reduceOption_cons_of_some, addSourceContext]
      have hmem : (contextStack.any fun context => decide (context.sourceIdentifier =
          source.identifier)) = true ↔
          source.identifier ∈ contextStack.map ParserContext.sourceIdentifier := by
        simp only [List.any_eq_true, decide_eq_true_iff, List.mem_map]
      by_cases hclash : source.identifier ∈ contextStack.map ParserContext.sourceIdentifier
      · rw [if_pos (hmem.2 hclash)]
        refine ⟨fun _ h => h.2 source List.mem_cons_self hclash, fun _ => rfl⟩
      · rw [if_neg fun h => hclash (hmem.1 h), ok_bind, ih]
        apply not_congr
        simp only [AreNew, List.map_cons, List.nodup_cons]
        constructor
        · rintro ⟨hnodup, hnew⟩
          refine ⟨⟨fun htwice => ?_, hnodup⟩, fun other hother => ?_⟩
          · obtain ⟨other, hother, heq⟩ := List.mem_map.1 htwice
            exact hnew other hother (heq ▸ List.mem_cons_self)
          · rcases List.mem_cons.1 hother with rfl | hother
            · exact hclash
            · exact fun h => hnew other hother (List.mem_cons_of_mem _ h)
        · rintro ⟨⟨htwice, hnodup⟩, hnew⟩
          refine ⟨hnodup, fun other hother h => ?_⟩
          rcases List.mem_cons.1 h with heq | h
          · exact htwice (List.mem_map.2 ⟨other, hother, heq⟩)
          · exact hnew other (List.mem_cons_of_mem _ hother) h

/-- The next turn of the parser includes the sources. -/
def Includes (settings : ParserSettings) (parser : Parser) (location : Location)
    (sourceList : List (Option Source)) : Prop :=
  ∃ context outer c₁ c₂ namePath text, parser.contextStack = context :: outer ∧
    initializeCurrentContext settings parser.steps context outer = .ok c₁ ∧
    c₁.nextAssignment = .ok (.metaValue namePath text location, c₂) ∧
    namePath.getLast? = some Name.metaInclude ∧
    resolveInclude settings (parser.steps + 1) c₂ text location = .ok sourceList

theorem nextAssignment_hasNext {context context' : ParserContext} {assignment : Assignment}
    (h : context.nextAssignment = .ok (assignment, context')) :
    context.hasNextAssignment = true := by
  rw [ParserContext.nextAssignment] at h
  split_ifs at h with hnext
  simpa using hnext

theorem Includes.parse_loop (h : Includes settings parser location sourceList) :
    parse settings (.running parser) = some (.failed (loopDetected location)) ↔
      ¬ AreNew parser.contextStack (addedSources sourceList) := by
  obtain ⟨context, outer, c₁, c₂, namePath, text, hstack, hinitialize, hnext, hinclude,
    hresolve⟩ := h
  have hsame := ((initializeCurrentContext_continues hinitialize).1.trans
    (nextAssignment_continues hnext).1).source
  have hadd : processContext settings parser context outer =
      addSourceContexts c₂ outer location sourceList >>= fun contextStack =>
        .ok { parser with steps := parser.steps + 1, contextStack } := by
    rw [processContext, hinitialize, ok_bind, if_pos (nextAssignment_hasNext hnext), hnext, ok_bind]
    simp only [processAssignment, processMetaValue]
    rw [hinclude, if_neg (by decide), if_pos rfl, hresolve, ok_bind]
    rfl
  have hloop := foldlM_addSourceContext_loop sourceList.reverse (c₂.includeLevel + 1)
    c₂.sourceIdentifier location (c₂ :: outer)
  have hidentifiers : (c₂ :: outer).map ParserContext.sourceIdentifier =
      (context :: outer).map ParserContext.sourceIdentifier := by
    rw [List.map_cons, ParserContext.sourceIdentifier, hsame]
    rfl
  rw [AreNew, hidentifiers, ← hstack] at hloop
  rw [AreNew, addedSources, ← hloop, parse, hstack]
  simp only [hadd, addSourceContexts]
  cases hresult : sourceList.reverse.foldlM (addSourceContext (c₂.includeLevel + 1)
    c₂.sourceIdentifier location) (c₂ :: outer) with
  | error error => exact ⟨fun h => by cases h; rfl, fun h => by cases h; rfl⟩
  | ok stack => exact ⟨nofun, nofun⟩

/-- One turn of the parser, seen from its stack. -/
def turn (settings : ParserSettings) (stack stack' : List ParserContext) : Prop :=
  ∃ parser parser' : Parser, parser.contextStack = stack ∧ parser'.contextStack = stack' ∧
    parse settings (.running parser) = some (.running parser')

theorem turn_unfolds : Unfolds (turn settings) ParserContext.includeLevel
    (fun context => context.assignments.length) (maxDocumentNesting - 1) where
  nil := by
    rintro stack ⟨parser, parser', hstack, _, hparse⟩
    rw [parse, hstack] at hparse
    cases hparse
  cons := by
    rintro context outer stack ⟨parser, parser', hstack, rfl, hparse⟩
    rw [parse, hstack] at hparse
    cases hturn : processContext settings parser context outer with
    | error error =>
      simp only [hturn] at hparse
      cases hparse
    | ok parser'' =>
      simp only [hturn] at hparse
      cases hparse
      rcases processContext_cases hturn with hleave | ⟨c, opened, hopen, hcontinues, hless, hadded⟩
      · exact .inl hleave
      · refine .inr ⟨c, opened, hopen, hcontinues.includeLevel, hless, fun added hmem => ?_⟩
        obtain ⟨hlevel, _, hbound⟩ := hadded added hmem
        exact ⟨by omega, Nat.le_pred_of_lt hbound⟩

/-- Every parser ends, whatever its collaborators do. -/
theorem parse_halts (settings : ParserSettings) (parser : Parser)
    (h : ∀ context ∈ parser.contextStack, context.includeLevel ≤ maxDocumentNesting - 1) :
    ∃ state, Reaches (parse settings) (.running parser) state ∧ parse settings state = none := by
  have hterminates : Terminates (turn settings) parser.contextStack :=
    terminates turn_unfolds parser.contextStack h
  clear h
  generalize hstack : parser.contextStack = stack at hterminates
  induction hterminates generalizing parser with
  | intro stack _ ih =>
    cases hparse : parse settings (.running parser) with
    | none => exact ⟨_, .refl, hparse⟩
    | some state =>
      cases state with
      | running parser' =>
        obtain ⟨state, hreaches, hhalted⟩ :=
          ih parser'.contextStack ⟨parser, parser', hstack, rfl, hparse⟩ parser' rfl
        exact ⟨state, .head hparse hreaches, hhalted⟩
      | finished document location => exact ⟨_, .single hparse, rfl⟩
      | failed error => exact ⟨_, .single hparse, rfl⟩

theorem Nested.root (h : Nested levels) :
    ∀ root ∈ (levels.map Level.current).getLast?, root.parentSourceIdentifier = none := by
  induction levels with
  | nil => exact fun _ h => absurd h (Option.not_mem_none _)
  | cons level outer ih =>
    cases outer with
    | nil =>
      rintro _ ⟨⟩
      exact (h.1 level.current List.mem_cons_self).2.2
    | cons level' outer =>
      rw [List.map_cons, List.map_cons, List.getLast?_cons_cons]
      exact ih h.2

/-- One of the sources is the document that is read or one through which it was included. -/
def IncludesLoop (parser : Parser) (sources : List Source) : Prop :=
  ∃ source ∈ sources,
    source.identifier ∈ (includeChain parser.contextStack).map ParserContext.sourceIdentifier

theorem IncludesLoop.not_areNew {parser : Parser} (h : IncludesLoop parser sources) :
    ¬ AreNew parser.contextStack sources := by
  obtain ⟨source, hsource, hchain⟩ := h
  have hsub : ∀ contexts, ∀ context ∈ includeChain contexts, context ∈ contexts := by
    intro contexts
    induction contexts with
    | nil => exact fun _ h => h
    | cons first outer ih =>
      intro context hcontext
      rcases List.mem_cons.1 hcontext with rfl | hcontext
      · exact List.mem_cons_self
      · exact List.mem_cons_of_mem _ (ih context (List.mem_filter.1 hcontext).1)
  intro hnew
  obtain ⟨context, hcontext, heq⟩ := List.mem_map.1 hchain
  exact hnew.2 source hsource (List.mem_map.2 ⟨context, hsub _ context hcontext, heq⟩)

/-- Every parse ends with few nested documents, and reports a loop where there is one exactly when
an include has a loop or only new documents. -/
theorem parse_includes (settings : ParserSettings) (documentSource : Source) :
    (∃ state, Reaches (parse settings) (.running (start documentSource)) state ∧
      parse settings state = none) ∧
    ∀ parser, Reaches (parse settings) (.running (start documentSource)) (.running parser) →
      (includeChain parser.contextStack).length ≤ maxDocumentNesting ∧
      (includeChain parser.contextStack).IsChain ParserContext.IncludedBy ∧
      (∀ root ∈ (includeChain parser.contextStack).getLast?,
        root.parentSourceIdentifier = none) ∧
      ∀ location sourceList, Includes settings parser location sourceList →
        ((parse settings (.running parser) = some (.failed (loopDetected location)) ↔
            IncludesLoop parser (addedSources sourceList)) ↔
          IncludesLoop parser (addedSources sourceList) ∨
            AreNew parser.contextStack (addedSources sourceList)) := by
  constructor
  · apply parse_halts
    intro context hcontext
    rw [List.mem_singleton.1 hcontext]
    exact Nat.zero_le _
  · intro parser hreaches
    obtain ⟨levels, hflat, hnested⟩ := isNested_of_reaches hreaches
    have hchain := hnested.includeChain_eq
    rw [hflat] at hchain
    rw [hchain, List.length_map]
    refine ⟨hnested.length_le, hnested.isChain, hnested.root, fun location sourceList hincludes => ?_⟩
    rw [hincludes.parse_loop]
    by_cases hloop : IncludesLoop parser (addedSources sourceList)
    · exact ⟨fun _ => .inl hloop, fun _ => ⟨fun _ => hloop, fun _ => hloop.not_areNew⟩⟩
    · constructor
      · intro h
        by_contra hnone
        exact hloop (h.1 fun hnew => hnone (.inr hnew))
      · rintro (h | hnew)
        · exact absurd h hloop
        · exact ⟨fun h => absurd hnew h, fun h => absurd h hloop⟩

/-- A document that waits next to the including one is reported as a loop. -/
theorem parse_pending_sibling :
    let identifier : Char → SourceIdentifier := fun c => ⟨['f'], [c]⟩
    let including : Except Error Assignment := .ok (.metaValue [Name.metaInclude] [] {})
    let main : Source := ⟨identifier 'm', [including, .ok .endOfDocument], .ok (), .ok (), []⟩
    let first : Source := ⟨identifier 'a', [including, .ok .endOfDocument], .ok (), .ok (), []⟩
    let second : Source := ⟨identifier 'b', [.ok .endOfDocument], .ok (), .ok (), []⟩
    let settings : ParserSettings :=
      { sourceResolver := some fun _ context =>
          if context.sourceIdentifier = main.identifier then .ok (some [some first, some second])
          else .ok (some [some second]) }
    ∃ parser, Reaches (parse settings) (.running (start main)) (.running parser) ∧
      Includes settings parser {} [some second] ∧
      (includeChain parser.contextStack).map ParserContext.sourceIdentifier =
        [first.identifier, main.identifier] ∧
      ¬ IncludesLoop parser (addedSources [some second]) ∧
      parse settings (.running parser) = some (.failed (loopDetected {})) := by
  intro identifier including main first second settings
  have hturn : parse settings (.running (start main)) = some (.running _) := rfl
  refine ⟨_, .single hturn, ⟨_, _, _, _, _, _, rfl, rfl, rfl, rfl, rfl⟩, rfl, ?_, rfl⟩
  rintro ⟨source, hsource, hloop⟩
  obtain rfl : source = second := List.mem_singleton.1 hsource
  exact absurd hloop (by decide)

end Parser
end ErbslandCore.Conf
