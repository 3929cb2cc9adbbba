import ErbslandCore.Compression.ZstandardFseStates

namespace ErbslandCore.Compression.Zstandard
open Library EntropyStates
set_option autoImplicit true

/-- The number of a cell, counted from the count of its symbol. -/
def cellNumber (symbols : List Nat) (i : Nat) : Nat :=
  symbols.count symbols[i]! + (symbols.take i).count symbols[i]!

/-- The transition of a cell, when the cells hold `symbols`. -/
def transition (accuracyLog : Nat) (symbols : List Nat) (i : Nat) : ZstandardFseEntry where
  symbol := symbols[i]!
  bitCount := stateBits accuracyLog (cellNumber symbols i)
  stateBase := stateBase accuracyLog (cellNumber symbols i)

theorem take_succ_count {symbols : List Nat} (hi : i < symbols.length) (a : Nat) :
    (symbols.take (i + 1)).count a =
      (symbols.take i).count a + if symbols[i]! = a then 1 else 0 := by
  rw [List.take_add_one, List.count_append, List.getElem?_eq_getElem hi, getElem!_pos _ i hi,
    Option.toList_some, List.count_singleton]
  simp only [beq_iff_eq]

theorem cellNumber_bounds {symbols : List Nat} (hi : i < symbols.length) :
    symbols.count symbols[i]! ≤ cellNumber symbols i ∧
      cellNumber symbols i < 2 * symbols.count symbols[i]! := by
  have hle := (List.take_sublist (i + 1) symbols).count_le symbols[i]!
  rw [take_succ_count hi, if_pos rfl] at hle
  rw [cellNumber]
  omega

theorem cellNumber_lt {symbols : List Nat} (hi : i < symbols.length)
    (hlen : symbols.length = 2 ^ accuracyLog) :
    0 < cellNumber symbols i ∧ cellNumber symbols i < 2 ^ (accuracyLog + 1) := by
  obtain ⟨hlow, hhigh⟩ := cellNumber_bounds hi
  have hcount := symbols.count_le_length (a := symbols[i]!)
  rw [Nat.pow_succ]
  omega

/-- The bit widths and the bases that are stored are not reduced. -/
theorem stored_transition (hx : 0 < x) (h : x < 2 ^ (accuracyLog + 1)) (hlog : accuracyLog ≤ 9) :
    (accuracyLog + 2 ^ 8 - Nat.log2 x) % 2 ^ 8 = stateBits accuracyLog x ∧
      ((x <<< stateBits accuracyLog x) + 2 ^ 32 - 2 ^ accuracyLog) % 2 ^ 16 =
        stateBase accuracyLog x := by
  have hl := log2_le hx h
  obtain ⟨hlow, hhigh⟩ := scaled_bounds hx h
  have hmul : x * 2 ^ stateBits accuracyLog x ≤ (x + 1) * 2 ^ stateBits accuracyLog x :=
    Nat.mul_le_mul_right _ (Nat.le_succ x)
  have hsize : 2 ^ accuracyLog ≤ 2 ^ 9 := Nat.pow_le_pow_right (by omega) hlog
  constructor
  · rw [stateBits]
    omega
  · rw [stateBase, Nat.shiftLeft_eq]
    rw [Nat.pow_succ] at hhigh
    generalize x * 2 ^ stateBits accuracyLog x = y at *
    omega

/-- Numbering the states gives every cell its transition. -/
theorem enterStates_spec {symbols : List Nat} (hlog : accuracyLog ≤ 9)
    (hlen : symbols.length = 2 ^ accuracyLog) (state left : Nat)
    (hleft : state + left = 2 ^ accuracyLog) (next : List Nat) (entries : List ZstandardFseEntry)
    (hentries : 2 ^ accuracyLog ≤ entries.length)
    (hsym : ∀ i < 2 ^ accuracyLog, entries[i]!.symbol = symbols[i]!)
    (hnext : ∀ a ∈ symbols, a < next.length ∧
      next[a]! = symbols.count a + (symbols.take state).count a) :
    ∃ result, enterStates accuracyLog (2 ^ accuracyLog) next entries (List.range' state left) =
        .ok result ∧
      (∀ i < state, result[i]! = entries[i]!) ∧
      ∀ i, state ≤ i → i < 2 ^ accuracyLog → result[i]! = transition accuracyLog symbols i := by
  induction left generalizing state next entries with
  | zero => exact ⟨entries, rfl, fun i _ => rfl, fun i hle hlt => by omega⟩
  | succ left ih =>
    have hlt : state < 2 ^ accuracyLog := by omega
    have hi : state < symbols.length := hlen ▸ hlt
    have hmem : symbols[state]! ∈ symbols := by
      rw [getElem!_pos _ state hi]
      exact List.getElem_mem hi
    obtain ⟨hwithin, hnumber⟩ := hnext _ hmem
    obtain ⟨hpos, hsmall⟩ := cellNumber_lt hi hlen
    obtain ⟨hbits, hbase⟩ := stored_transition hpos hsmall hlog
    have hnumber : next[symbols[state]!]! = cellNumber symbols state := hnumber
    have hmod : (cellNumber symbols state + 1) % 2 ^ 16 = cellNumber symbols state + 1 := by
      have hsize : 2 ^ (accuracyLog + 1) ≤ 2 ^ 10 := Nat.pow_le_pow_right (by omega) (by omega)
      exact Nat.mod_eq_of_lt (by omega)
    have hstored (i : Nat) (hlt' : i < 2 ^ accuracyLog) :
        (entries.set state (transition accuracyLog symbols state))[i]! =
          if state = i then transition accuracyLog symbols state else entries[i]! := by
      have hwithin : i < entries.length := hlt'.trans_le hentries
      rw [getElem!_pos _ i (by rwa [List.length_set]), getElem!_pos _ i hwithin, List.getElem_set]
    have hsym' : ∀ i < 2 ^ accuracyLog,
        (entries.set state (transition accuracyLog symbols state))[i]!.symbol = symbols[i]! := by
      intro i hlt'
      rw [hstored i hlt']
      split
      case isTrue he => rw [← he]; rfl
      case isFalse => exact hsym i hlt'
    have hnext' : ∀ a ∈ symbols,
        a < (next.set symbols[state]! (cellNumber symbols state + 1)).length ∧
          (next.set symbols[state]! (cellNumber symbols state + 1))[a]! =
            symbols.count a + (symbols.take (state + 1)).count a := by
      intro a ha
      obtain ⟨hwithin', hcount⟩ := hnext a ha
      rw [List.length_set]
      refine ⟨hwithin', ?_⟩
      rw [getElem!_pos _ a (by rwa [List.length_set]), List.getElem_set, take_succ_count hi]
      split
      case isTrue he =>
        rw [← he, cellNumber]
        exact Nat.add_assoc ..
      case isFalse he =>
        rw [getElem!_pos _ a hwithin'] at hcount
        exact hcount
    obtain ⟨result, hok, hbefore, hafter⟩ := ih (state + 1) (by omega) _ _
      ((List.length_set ..).symm ▸ hentries) hsym' hnext'
    refine ⟨result, ?_, fun i hlt' => ?_, fun i hle hlt' => ?_⟩
    · rw [List.range'_succ, enterStates, hsym state hlt]
      simp only [hnumber, hbits, hbase, hmod, if_neg (Nat.ne_of_gt hpos)]
      exact hok
    · rw [hbefore i (by omega), hstored i (by omega), if_neg (by omega)]
    · rcases Nat.eq_or_lt_of_le hle with he | hgt
      · subst he
        rw [hbefore state (Nat.lt_succ_self _), hstored state hlt, if_pos rfl]
      · exact hafter i hgt hlt'

/-- The states that the transition of a cell leads to. -/
def ZstandardFseEntry.Reaches (entry : ZstandardFseEntry) (target : Nat) : Prop :=
  entry.stateBase ≤ target ∧ target < entry.stateBase + 2 ^ entry.bitCount

instance : Decidable (ZstandardFseEntry.Reaches entry target) :=
  inferInstanceAs (Decidable (_ ∧ _))

/-- Exactly one cell of each present symbol leads to a given state. -/
theorem existsUnique_cell {symbols : List Nat} (hlen : symbols.length = 2 ^ accuracyLog)
    (ha : 0 < symbols.count a) (ht : target < 2 ^ accuracyLog) :
    ∃! state, state < 2 ^ accuracyLog ∧ symbols[state]! = a ∧
      (transition accuracyLog symbols state).Reaches target := by
  have hle : symbols.count a ≤ 2 ^ accuracyLog := hlen ▸ symbols.count_le_length
  obtain ⟨x, ⟨⟨hx, hx'⟩, hreach⟩, hunique⟩ := existsUnique_state ha hle ht
  obtain ⟨state, ⟨hget, hrank⟩, huniqueState⟩ :=
    existsUnique_index (l := symbols) (a := a) (r := x - symbols.count a) (by omega)
  obtain ⟨hi, hget'⟩ := List.getElem?_eq_some_iff.mp hget
  have hsymbol : symbols[state]! = a := (getElem!_pos _ state hi).trans hget'
  have hnumber : cellNumber symbols state = x := by
    rw [cellNumber, hsymbol, hrank]
    omega
  refine ⟨state, ⟨hlen ▸ hi, hsymbol, ?_⟩, fun other ⟨hother, hsymbol', hreach'⟩ => ?_⟩
  · rw [ZstandardFseEntry.Reaches, transition, hnumber]
    exact hreach
  · have hother' : other < symbols.length := hlen ▸ hother
    have hbounds := cellNumber_bounds hother'
    rw [hsymbol'] at hbounds
    have hx := hunique _ ⟨hbounds, hreach'⟩
    refine huniqueState other ⟨?_, ?_⟩
    · rw [List.getElem?_eq_getElem hother', ← getElem!_pos _ other hother', hsymbol']
    · rw [← hx, cellNumber, hsymbol', Nat.add_sub_cancel_left]

theorem step_coprime (hlow : 5 ≤ accuracyLog) (hhigh : accuracyLog ≤ 9) :
    Nat.Coprime (2 ^ accuracyLog)
      ((1 <<< accuracyLog >>> 1) + (1 <<< accuracyLog >>> 3) + 3) := by
  interval_cases accuracyLog <;> decide

theorem checkCounts_ok {counts : List Int} (hlow : ∀ count ∈ counts, -1 ≤ count)
    (hsum : total + (counts.map probability).sum ≤ tableSize) :
    checkCounts tableSize total counts = .ok (total + (counts.map probability).sum) := by
  induction counts generalizing total with
  | nil => rfl
  | cons count counts ih =>
    rw [List.map_cons, List.sum_cons] at hsum ⊢
    have hcount := hlow count List.mem_cons_self
    rw [checkCounts, if_neg (by omega), if_neg (by omega), ih, Nat.add_assoc]
    · exact fun c hc => hlow c (List.mem_cons_of_mem _ hc)
    · omega

theorem spreadSymbols_nil (h : spreadOrder symbol counts = []) (step mask low fuel : Nat)
    (s : Spreading × Nat) : spreadSymbols step mask low fuel symbol s counts = some s := by
  rw [spreadSymbols_eq, h]
  rfl

theorem mem_spreadOrder_lt (h : a ∈ spreadOrder symbol counts) : a < symbol + counts.length := by
  induction counts generalizing symbol with
  | nil => cases h
  | cons count counts ih =>
    rw [List.length_cons]
    rcases List.mem_append.mp h with h | h
    · have ha := List.eq_of_mem_replicate h
      omega
    · have ha := ih h
      omega

theorem mem_lowSymbols_lt (h : a ∈ lowSymbols symbol counts) : a < symbol + counts.length := by
  induction counts generalizing symbol with
  | nil => cases h
  | cons count counts ih =>
    rw [List.length_cons]
    rw [lowSymbols] at h
    split at h
    case isTrue =>
      rcases List.mem_cons.mp h with rfl | h
      · omega
      · have ha := ih h
        omega
    case isFalse =>
      have ha := ih h
      omega

/-- A distribution that fills the table: no count is below minus one. -/
structure Normalized (accuracyLog : Nat) (counts : List Int) : Prop where
  nonempty : counts ≠ []
  symbols_le : counts.length ≤ 256
  counts_ge : ∀ count ∈ counts, -1 ≤ count
  sum_eq : (counts.map probability).sum = 2 ^ accuracyLog

theorem Assigned.nil (entries : List ZstandardFseEntry) : Assigned { entries := entries } [] where
  nodup := List.nodup_nil
  within := fun _ hc => nomatch hc
  symbols_eq := rfl

/-- Every cell is assigned exactly once, and the walk ends where it has started. -/
theorem assignSymbols_spec (h : Normalized accuracyLog counts) (hlow : 5 ≤ accuracyLog)
    (hhigh : accuracyLog ≤ 9) (hfuel : 2 ^ accuracyLog ≤ fuel)
    {entries : List ZstandardFseEntry} (hlen : entries.length = cEntryCount) :
    ∃ s next, assignSymbols fuel entries counts accuracyLog = some (s, 0, next) ∧
      s.entries.length = entries.length ∧ s.cells.Perm (List.range (2 ^ accuracyLog)) ∧
      Assigned s (lowSymbols 0 counts ++ spreadOrder 0 counts) ∧
      next.length = 2 ^ 8 ∧ ∀ i < counts.length, next[i]! = probability counts[i]! := by
  have hsize : 2 ^ accuracyLog ≤ 2 ^ 9 := Nat.pow_le_pow_right (by omega) hhigh
  have hentries : 2 ^ accuracyLog ≤ entries.length := by
    rw [hlen]
    exact hsize
  have hsum := symbols_length 0 counts
  rw [h.sum_eq] at hsum
  have hcells : ([] : List Nat).Perm
      (List.range' (2 ^ accuracyLog) (2 ^ accuracyLog - 2 ^ accuracyLog)) := by
    rw [Nat.sub_self]
    exact .refl _
  have hprob : ∀ count ∈ counts, probability count < 2 ^ 16 := by
    intro count hmem
    have hle := List.le_sum_of_mem (List.mem_map_of_mem (f := probability) hmem)
    rw [h.sum_eq] at hle
    omega
  have hwithin : 0 + counts.length ≤ 2 ^ 8 := by
    have hle := h.symbols_le
    omega
  obtain ⟨s, next, hok, hsizes, ha, hc, hnextLength, hnext, _⟩ := enterLow_spec 0
    { entries := entries } (2 ^ accuracyLog) (List.replicate 256 0) (Assigned.nil entries) hcells
    (Nat.le_refl _) hentries (by omega) hwithin List.length_replicate hprob
  simp only [Nat.zero_add] at hnext
  rw [List.nil_append] at ha
  have hassign : assignSymbols fuel entries counts accuracyLog =
      (spreadSymbols ((1 <<< accuracyLog >>> 1) + (1 <<< accuracyLog >>> 3) + 3)
        (2 ^ accuracyLog - 1) (2 ^ accuracyLog - (lowSymbols 0 counts).length) fuel 0 (s, 0)
        counts).bind fun r => some (r.1, r.2, next) := by
    rw [assignSymbols, Nat.one_shiftLeft, hok]
    rfl
  have hcoprime := step_coprime hlow hhigh
  generalize (1 <<< accuracyLog >>> 1) + (1 <<< accuracyLog >>> 3) + 3 = step at hassign hcoprime
  generalize hfree : 2 ^ accuracyLog - (lowSymbols 0 counts).length = low at hassign hc
  have hle : low ≤ 2 ^ accuracyLog := hfree ▸ Nat.sub_le ..
  have hrange : List.range (2 ^ accuracyLog) =
      List.range low ++ List.range' low (2 ^ accuracyLog - low) := by
    have happend : List.range' 0 low ++ List.range' (0 + low) (2 ^ accuracyLog - low) =
        List.range' 0 (low + (2 ^ accuracyLog - low)) := List.range'_append_1
    rw [Nat.zero_add, Nat.add_sub_cancel' hle] at happend
    rw [List.range_eq_range', List.range_eq_range', happend]
  by_cases hnone : spreadOrder 0 counts = []
  · -- All symbols have a probability of less than one.
    rw [hnone, List.length_nil] at hsum
    have hzero : low = 0 := by omega
    subst hzero
    rw [spreadSymbols_nil hnone] at hassign
    rw [hnone, List.append_nil]
    exact ⟨s, next, hassign, hsizes, hrange ▸ hc, ha, hnextLength, hnext⟩
  · have hpos := List.length_pos_of_ne_nil hnone
    have hplace : position accuracyLog step 0 < low := by
      rw [position, Nat.zero_mul, Nat.zero_mod]
      omega
    have hlast : ∀ cell ∈ s.cells, low ≤ cell := fun cell hmem =>
      (List.mem_range'_1.mp (hc.mem_iff.mp hmem)).1
    have hrest : (visited (2 ^ accuracyLog) step low 0).length + (spreadOrder 0 counts).length =
        low := by
      rw [visited, List.range_zero, List.map_nil, List.filter_nil, List.length_nil]
      omega
    have hsymbols : ∀ symbol ∈ spreadOrder 0 counts, symbol < 2 ^ 8 := fun symbol hmem =>
      (mem_spreadOrder_lt hmem).trans_le hwithin
    obtain ⟨s', hspread, hsizes', ha', hc'⟩ := spreadList_spec hcoprime hle hfuel
      (hsizes.symm ▸ hentries) ha hlast (List.append_nil _).symm (Nat.zero_le _) hplace hrest
      hsymbols
    rw [position, Nat.zero_mul, Nat.zero_mod, ← spreadSymbols_eq] at hspread
    rw [hspread] at hassign
    refine ⟨s', next, hassign, hsizes'.trans hsizes, ?_, ha', hnextLength, hnext⟩
    rw [hc', hrange]
    have hvisited := visited_perm (Nat.two_pow_pos accuracyLog) hcoprime hle
    exact (hc.append hvisited).trans List.perm_append_comm

theorem build_eq (table : ZstandardFseTable) (hlow : 5 ≤ accuracyLog)
    (hhigh : accuracyLog ≤ 9) (h : Normalized accuracyLog counts) {s : Spreading}
    (hassign : assignSymbols fuel table.entries counts accuracyLog = some (s, 0, next))
    (hstates : enterStates accuracyLog (2 ^ accuracyLog) next s.entries
      (List.range (2 ^ accuracyLog)) = .ok result) :
    ∃ built, table.build fuel counts accuracyLog = some (.ok built) ∧ built.entries = result ∧
      built.size = 2 ^ accuracyLog := by
  have hcheck := checkCounts_ok h.counts_ge (Nat.le_of_eq ((Nat.zero_add _).trans h.sum_eq))
  rw [Nat.zero_add, h.sum_eq] at hcheck
  have hdims : ¬(accuracyLog < 5 ∨ 9 < accuracyLog ∨ counts = [] ∨ 256 < counts.length) := by
    rintro (hlt | hlt | he | hlt)
    · exact absurd hlow (Nat.not_le.mpr hlt)
    · exact absurd hhigh (Nat.not_le.mpr hlt)
    · exact h.nonempty he
    · exact absurd h.symbols_le (Nat.not_le.mpr hlt)
  rw [ZstandardFseTable.build, if_neg hdims]
  simp only [Nat.one_shiftLeft, hcheck]
  rw [if_neg (fun h => h rfl)]
  split
  case h_1 hnone =>
    rw [hnone] at hassign
    cases hassign
  case h_2 s' position' next' hsome =>
    rw [hsome] at hassign
    cases hassign
    rw [if_neg (fun h => h rfl)]
    split
    case h_1 hsome' =>
      rw [Nat.one_shiftLeft, hstates] at hsome'
      cases hsome'
    case h_2 hsome' =>
      rw [Nat.one_shiftLeft, hstates] at hsome'
      cases hsome'
      exact ⟨_, rfl, rfl, rfl⟩

/-- Building a table ends, assigns every cell exactly once, and gives the cells of every present
symbol ranges of states that partition the table. -/
theorem build_partitions_states (table : ZstandardFseTable) (h : Normalized accuracyLog counts)
    (hlow : 5 ≤ accuracyLog) (hhigh : accuracyLog ≤ 9) (hfuel : 2 ^ accuracyLog ≤ fuel) :
    ∃ s next built, assignSymbols fuel table.entries counts accuracyLog = some (s, 0, next) ∧
      s.cells.Perm (List.range (2 ^ accuracyLog)) ∧
      table.build fuel counts accuracyLog = some (.ok built) ∧ built.size = 2 ^ accuracyLog ∧
      ∀ symbol < counts.length,
        ((List.range (2 ^ accuracyLog)).map fun state => built.entries[state]!.symbol).count symbol =
          probability counts[symbol]! ∧
        (∀ state < 2 ^ accuracyLog, built.entries[state]!.symbol = symbol →
          built.entries[state]!.stateBase + 2 ^ built.entries[state]!.bitCount ≤
            2 ^ accuracyLog) ∧
        (0 < probability counts[symbol]! → ∀ target < 2 ^ accuracyLog,
          ∃! state, state < 2 ^ accuracyLog ∧ built.entries[state]!.symbol = symbol ∧
            built.entries[state]!.Reaches target) := by
  obtain ⟨s, next, hassign, hsizes, hcells, ha, hnextLength, hnext⟩ :=
    assignSymbols_spec h hlow hhigh hfuel table.entries_length
  generalize hsymbols : (List.range (2 ^ accuracyLog)).map (fun cell => s.entries[cell]!.symbol) =
    symbols
  have hlen : symbols.length = 2 ^ accuracyLog := by
    rw [← hsymbols, List.length_map, List.length_range]
  have hget : ∀ i < 2 ^ accuracyLog, s.entries[i]!.symbol = symbols[i]! := by
    intro i hi
    have hi' : i < symbols.length := hlen.symm ▸ hi
    rw [getElem!_pos symbols i hi']
    simp only [← hsymbols, List.getElem_map, List.getElem_range]
  have hperm : (lowSymbols 0 counts ++ spreadOrder 0 counts).Perm symbols := by
    rw [← ha.symbols_eq, ← hsymbols]
    exact hcells.map _
  have hcount : ∀ symbol < counts.length, symbols.count symbol = probability counts[symbol]! := by
    intro symbol hsymbol
    have hcount := count_symbols 0 hsymbol
    rwa [Nat.zero_add, hperm.count_eq] at hcount
  have hwithin : ∀ a ∈ symbols, a < counts.length := by
    intro a hmem
    have hlt : a < 0 + counts.length := by
      rcases List.mem_append.mp (hperm.mem_iff.mpr hmem) with hmem | hmem
      · exact mem_lowSymbols_lt hmem
      · exact mem_spreadOrder_lt hmem
    rwa [Nat.zero_add] at hlt
  have hsize : 2 ^ accuracyLog ≤ 2 ^ 9 := Nat.pow_le_pow_right (by omega) hhigh
  have hentries : 2 ^ accuracyLog ≤ s.entries.length := by
    rw [hsizes, table.entries_length]
    exact hsize
  have hcounters : ∀ a ∈ symbols, a < next.length ∧
      next[a]! = symbols.count a + (symbols.take 0).count a := by
    intro a hmem
    have hsymbol := hwithin a hmem
    have hle := h.symbols_le
    refine ⟨by omega, ?_⟩
    rw [hnext a hsymbol, hcount a hsymbol]
    rfl
  obtain ⟨result, hstates, _, hresult⟩ := enterStates_spec hhigh hlen 0 (2 ^ accuracyLog)
    (Nat.zero_add _) next s.entries hentries hget hcounters
  rw [← List.range_eq_range'] at hstates
  obtain ⟨built, hbuild, hbuilt, hbuiltSize⟩ := build_eq table hlow hhigh h hassign hstates
  have hresult : ∀ i < 2 ^ accuracyLog, built.entries[i]! = transition accuracyLog symbols i := by
    intro i hi
    rw [hbuilt]
    exact hresult i (Nat.zero_le i) hi
  refine ⟨s, next, built, hassign, hcells, hbuild, hbuiltSize, fun symbol hsymbol => ⟨?_, ?_, ?_⟩⟩
  · rw [← hcount symbol hsymbol, ← hsymbols]
    refine congrArg (List.count symbol) (List.map_congr_left fun i hi => ?_)
    have hi := List.mem_range.mp hi
    rw [hresult i hi, hget i hi]
    rfl
  · intro state hstate _
    obtain ⟨hpos, hsmall⟩ := cellNumber_lt (hlen.symm ▸ hstate) hlen
    rw [hresult state hstate]
    exact base_add_le hpos hsmall
  · intro hpresent target htarget
    rw [← hcount symbol hsymbol] at hpresent
    obtain ⟨state, ⟨hstate, hsym, hreach⟩, hunique⟩ := existsUnique_cell hlen hpresent htarget
    refine ⟨state, ⟨hstate, ?_, ?_⟩, fun other ⟨hother, hsym', hreach'⟩ => ?_⟩
    · rw [hresult state hstate]
      exact hsym
    · rw [hresult state hstate]
      exact hreach
    · rw [hresult other hother] at hsym' hreach'
      exact hunique other ⟨hother, hsym', hreach'⟩

/-- A table of 32 states with one symbol of a probability of less than one. -/
theorem build_partitions_states_three :
    Normalized 5 [20, -1, 11] ∧ ∃ s next built,
      assignSymbols 32 ({} : ZstandardFseTable).entries [20, -1, 11] 5 = some (s, 0, next) ∧
      s.cells.Perm (List.range (2 ^ 5)) ∧
      ({} : ZstandardFseTable).build 32 [20, -1, 11] 5 = some (.ok built) ∧ built.size = 2 ^ 5 ∧
      ∀ symbol < 3,
        ((List.range (2 ^ 5)).map fun state => built.entries[state]!.symbol).count symbol =
          probability [20, -1, 11][symbol]! ∧
        (∀ state < 2 ^ 5, built.entries[state]!.symbol = symbol →
          built.entries[state]!.stateBase + 2 ^ built.entries[state]!.bitCount ≤ 2 ^ 5) ∧
        (0 < probability [20, -1, 11][symbol]! → ∀ target < 2 ^ 5,
          ∃! state, state < 2 ^ 5 ∧ built.entries[state]!.symbol = symbol ∧
            built.entries[state]!.Reaches target) := by
  have h : Normalized 5 [20, -1, 11] := ⟨by decide, by decide, by decide, by decide⟩
  exact ⟨h, build_partitions_states {} h (by decide) (by decide) (by decide)⟩

end ErbslandCore.Compression.Zstandard
