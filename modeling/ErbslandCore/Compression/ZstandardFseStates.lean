import ErbslandCore.Compression.ZstandardFseTable

namespace ErbslandCore.Compression.Zstandard
open Library EntropyStates
set_option autoImplicit true

/-- The cells that were assigned so far are distinct and hold the listed symbols. -/
structure Assigned (s : Spreading) (symbols : List Nat) : Prop where
  nodup : s.cells.Nodup
  within : ∀ cell ∈ s.cells, cell < s.entries.length
  symbols_eq : (s.cells.map fun cell => s.entries[cell]!.symbol) = symbols

theorem Assigned.assign {s : Spreading} (h : Assigned s symbols) (hnew : cell ∉ s.cells)
    (hc : cell < s.entries.length) (hs : symbol < 2 ^ 8) :
    Assigned (s.assign cell symbol) (symbols ++ [symbol]) := by
  refine ⟨?_, fun c hmem => ?_, ?_⟩
  · exact List.nodup_append.mpr ⟨h.nodup, List.nodup_singleton _, fun a ha b hb => by
      rw [List.mem_singleton.mp hb]
      rintro rfl
      exact hnew ha⟩
  · rw [Spreading.assign_length]
    rcases List.mem_append.mp hmem with hmem | hmem
    · exact h.within c hmem
    · rwa [List.mem_singleton.mp hmem]
  · have hget (c : Nat) (hcl : c < s.entries.length) :
        (s.assign cell symbol).entries[c]!.symbol =
          if cell = c then symbol else s.entries[c]!.symbol := by
      have hcl' : c < (s.assign cell symbol).entries.length := by
        rwa [Spreading.assign_length]
      rw [getElem!_pos _ c hcl', getElem!_pos _ c hcl]
      simp only [Spreading.assign, List.getElem_set]
      split
      case isTrue => exact Nat.mod_eq_of_lt hs
      case isFalse => rfl
    rw [← h.symbols_eq]
    simp only [Spreading.assign, List.map_append, List.map_cons, List.map_nil]
    congr 1
    · refine List.map_congr_left fun c hmem => ?_
      have hne : cell ≠ c := fun he => hnew (he ▸ hmem)
      exact (hget c (h.within c hmem)).trans (if_neg hne)
    · exact congrArg (fun x => [x]) ((hget cell hc).trans (if_pos rfl))

/-- The symbols with a probability of less than one. -/
def lowSymbols (symbol : Nat) : (counts : List Int) → List Nat
  | [] => []
  | count :: counts =>
    if count = -1 then symbol :: lowSymbols (symbol + 1) counts
    else lowSymbols (symbol + 1) counts

/-- The other symbols, each as often as its count says. -/
def spreadOrder (symbol : Nat) : (counts : List Int) → List Nat
  | [] => []
  | count :: counts => List.replicate count.toNat symbol ++ spreadOrder (symbol + 1) counts

theorem count_lowSymbols_of_lt (h : wanted < symbol) (counts : List Int) :
    (lowSymbols symbol counts).count wanted = 0 := by
  induction counts generalizing symbol with
  | nil => rfl
  | cons count counts ih =>
    rw [lowSymbols]
    split
    case isTrue => rw [List.count_cons_of_ne (by omega), ih (by omega)]
    case isFalse => exact ih (by omega)

theorem count_spreadOrder_of_lt (h : wanted < symbol) (counts : List Int) :
    (spreadOrder symbol counts).count wanted = 0 := by
  induction counts generalizing symbol with
  | nil => rfl
  | cons count counts ih =>
    rw [spreadOrder, List.count_append, ih (by omega), List.count_replicate,
      beq_false_of_ne (by omega)]
    rfl

/-- Every symbol is assigned as often as its probability says. -/
theorem count_symbols (symbol : Nat) {counts : List Int} (h : i < counts.length) :
    (lowSymbols symbol counts ++ spreadOrder symbol counts).count (symbol + i) =
      probability counts[i]! := by
  induction counts generalizing symbol i with
  | nil => cases h
  | cons count counts ih =>
    rw [List.count_append, lowSymbols, spreadOrder, List.count_append]
    cases i with
    | zero =>
      have hlow := count_lowSymbols_of_lt (Nat.lt_succ_self symbol) counts
      have hspread := count_spreadOrder_of_lt (Nat.lt_succ_self symbol) counts
      rw [Nat.add_zero, hspread, List.count_replicate_self, Nat.add_zero]
      change _ = probability count
      rw [probability]
      by_cases hm : count = -1
      · rw [if_pos hm, if_pos hm, List.count_cons_self, hlow, hm]
        rfl
      · rw [if_neg hm, if_neg hm, hlow, Nat.zero_add]
        rfl
    | succ i =>
      have hrest := ih (symbol + 1) (Nat.lt_of_succ_lt_succ h)
      rw [List.count_append, Nat.add_right_comm] at hrest
      change _ = probability counts[i]!
      have hne : symbol ≠ symbol + (i + 1) := by omega
      rw [← hrest, List.count_replicate, beq_false_of_ne hne]
      simp only [Bool.false_eq_true, ↓reduceIte, Nat.zero_add, ← Nat.add_assoc] at hne ⊢
      split
      case isTrue => rw [List.count_cons_of_ne hne]
      case isFalse => rfl

theorem symbols_length (symbol : Nat) (counts : List Int) :
    (lowSymbols symbol counts).length + (spreadOrder symbol counts).length =
      (counts.map probability).sum := by
  induction counts generalizing symbol with
  | nil => rfl
  | cons count counts ih =>
    rw [lowSymbols, spreadOrder, List.map_cons, List.sum_cons, ← ih (symbol + 1),
      List.length_append, List.length_replicate, probability]
    by_cases hm : count = -1
    · rw [if_pos hm, if_pos hm, List.length_cons, hm]
      omega
    · rw [if_neg hm, if_neg hm]
      omega

/-- A state counter that is stored before the rest of the counters. -/
theorem counters_cons {next next' : List Nat} {counts : List Int} (hs : symbol < next.length)
    (hget : ∀ i < counts.length, next'[symbol + 1 + i]! = probability counts[i]!)
    (hkeep : ∀ k < symbol + 1, next'[k]! = (next.set symbol (probability count))[k]!) :
    (∀ i < (count :: counts).length, next'[symbol + i]! = probability (count :: counts)[i]!) ∧
      ∀ k < symbol, next'[k]! = next[k]! := by
  have hset (k : Nat) (hk : k < next.length) : (next.set symbol (probability count))[k]! =
      if symbol = k then probability count else next[k]! := by
    have hk' : k < (next.set symbol (probability count)).length := by rwa [List.length_set]
    rw [getElem!_pos _ k hk', getElem!_pos next k hk, List.getElem_set]
  constructor
  · intro i hi
    cases i with
    | zero => exact (hkeep symbol (Nat.lt_succ_self _)).trans ((hset symbol hs).trans (if_pos rfl))
    | succ i =>
      have hrest := hget i (Nat.lt_of_succ_lt_succ hi)
      rwa [Nat.add_right_comm] at hrest
  · intro k hk
    have hne : symbol ≠ k := (Nat.ne_of_lt hk).symm
    exact (hkeep k (Nat.lt_succ_of_lt hk)).trans ((hset k (hk.trans hs)).trans (if_neg hne))

/-- The symbols with a probability of less than one get the last cells, and every state counter
starts at the probability. -/
theorem enterLow_spec (symbol : Nat) (s : Spreading) (low : Nat) (next : List Nat)
    {counts : List Int} (h : Assigned s symbols)
    (hcells : s.cells.Perm (List.range' low (n - low))) (hn : low ≤ n)
    (hlen : n ≤ s.entries.length) (hl : (lowSymbols symbol counts).length ≤ low)
    (hsym : symbol + counts.length ≤ 2 ^ 8) (hnext : next.length = 2 ^ 8)
    (hp : ∀ count ∈ counts, probability count < 2 ^ 16) :
    ∃ s' next', enterLow symbol s low next counts =
        (s', low - (lowSymbols symbol counts).length, next') ∧
      s'.entries.length = s.entries.length ∧
      Assigned s' (symbols ++ lowSymbols symbol counts) ∧
      s'.cells.Perm (List.range' (low - (lowSymbols symbol counts).length)
        (n - (low - (lowSymbols symbol counts).length))) ∧
      next'.length = 2 ^ 8 ∧
      (∀ i < counts.length, next'[symbol + i]! = probability counts[i]!) ∧
      ∀ k < symbol, next'[k]! = next[k]! := by
  induction counts generalizing symbol s low next symbols with
  | nil =>
    refine ⟨s, next, rfl, rfl, ?_, hcells, hnext, fun i hi => absurd hi (Nat.not_lt_zero i),
      fun _ _ => rfl⟩
    rwa [lowSymbols, List.append_nil]
  | cons count counts ih =>
    rw [List.length_cons] at hsym
    have hsym' : symbol + 1 + counts.length ≤ 2 ^ 8 := by omega
    have hs : symbol < next.length := by omega
    have hp' : ∀ c ∈ counts, probability c < 2 ^ 16 := fun c hc => hp c (List.mem_cons_of_mem _ hc)
    have hlen' (value : Nat) : (next.set symbol value).length = 2 ^ 8 :=
      (List.length_set ..).trans hnext
    rw [lowSymbols] at hl
    rw [enterLow, lowSymbols]
    by_cases hm : count = -1
    · rw [if_pos hm, List.length_cons] at hl
      rw [if_pos hm, if_pos hm, List.length_cons, Nat.sub_add_eq, Nat.sub_right_comm]
      have hone : probability count = 1 := if_pos hm
      have hnew : low - 1 ∉ s.cells := by
        rw [hcells.mem_iff, List.mem_range'_1]
        omega
      have hwithin : low - 1 < s.entries.length := by omega
      have hassign := h.assign hnew hwithin (show symbol < 2 ^ 8 by omega)
      have hperm : (s.assign (low - 1) symbol).cells.Perm
          (List.range' (low - 1) (n - (low - 1))) := by
        have hrange : List.range' (low - 1) (n - (low - 1)) =
            (low - 1) :: List.range' low (n - low) := by
          rw [show n - (low - 1) = n - low + 1 by omega, List.range'_succ,
            Nat.sub_add_cancel (by omega)]
        rw [hrange]
        exact List.perm_append_comm.trans (hcells.cons _)
      have hsize := s.assign_length (low - 1) symbol
      obtain ⟨s', next', hok, hsize', ha, hc, hcount, hget, hkeep⟩ := ih (symbol + 1)
        (s.assign (low - 1) symbol) (low - 1) (next.set symbol 1) hassign hperm (by omega)
        (by omega) (by omega) hsym' (hlen' 1) hp'
      rw [show next.set symbol 1 = next.set symbol (probability count) by rw [hone]] at hkeep
      rw [List.append_assoc] at ha
      exact ⟨s', next', hok, hsize'.trans hsize, ha, hc, hcount, counters_cons hs hget hkeep⟩
    · rw [if_neg hm] at hl
      rw [if_neg hm, if_neg hm]
      have hcount := hp count List.mem_cons_self
      have hprob : probability count = count.toNat % 2 ^ 16 := by
        rw [probability, if_neg hm] at hcount ⊢
        exact (Nat.mod_eq_of_lt hcount).symm
      obtain ⟨s', next', hok, hsize', ha, hc, hcount, hget, hkeep⟩ := ih (symbol + 1) s low
        (next.set symbol (count.toNat % 2 ^ 16)) h hcells hn hlen hl hsym' (hlen' _) hp'
      rw [← hprob] at hkeep
      exact ⟨s', next', hok, hsize', ha, hc, hcount, counters_cons hs hget hkeep⟩

section
variable {step accuracyLog low : Nat}

/-- The position after `i` steps over the whole table. -/
def position (accuracyLog step i : Nat) : Nat := i * step % 2 ^ accuracyLog

theorem position_succ (i : Nat) :
    (position accuracyLog step i + step) &&& (2 ^ accuracyLog - 1) =
      position accuracyLog step (i + 1) := by
  rw [Nat.and_two_pow_sub_one_eq_mod, position, Nat.mod_add_mod, position, Nat.succ_mul]

theorem position_end : position accuracyLog step (2 ^ accuracyLog) = 0 := Nat.mul_mod_right ..

/-- Stepping over the taken cells ends at a free cell, or at the start after a whole walk. -/
theorem skip_spec (hlow : 0 < low) {fuel i : Nat} (hi : i ≤ 2 ^ accuracyLog)
    (hfuel : 2 ^ accuracyLog - i < fuel) :
    ∃ j ≤ 2 ^ accuracyLog, position accuracyLog step j < low ∧
      skip step (2 ^ accuracyLog - 1) low fuel (position accuracyLog step i) =
        some (position accuracyLog step j) ∧
      visited (2 ^ accuracyLog) step low j = visited (2 ^ accuracyLog) step low i := by
  induction fuel generalizing i with
  | zero => cases hfuel
  | succ fuel ih =>
    rw [skip]
    by_cases hfree : low ≤ position accuracyLog step i
    · rw [if_pos hfree, position_succ]
      have hlt : i < 2 ^ accuracyLog := by
        refine Nat.lt_of_le_of_ne hi fun he => ?_
        rw [he, position_end] at hfree
        exact absurd hlow (Nat.not_lt.mpr hfree)
      obtain ⟨j, hj, hpos, hok, hv⟩ := ih hlt (by omega)
      exact ⟨j, hj, hpos, hok, hv.trans (visited_succ_of_le hfree)⟩
    · rw [if_neg hfree]
      exact ⟨i, hi, Nat.lt_of_not_le hfree, rfl, rfl⟩

/-- Assign one symbol after the other. -/
def spreadList (step mask low fuel : Nat) :
    (symbols : List Nat) → Spreading × Nat → Option (Spreading × Nat)
  | [], s => some s
  | symbol :: symbols, (s, position) => do
    let next ← skip step mask low fuel ((position + step) &&& mask)
    spreadList step mask low fuel symbols (s.assign position symbol, next)

theorem spreadList_append (mask fuel : Nat) (first rest : List Nat) (s : Spreading × Nat) :
    spreadList step mask low fuel (first ++ rest) s =
      (spreadList step mask low fuel first s).bind (spreadList step mask low fuel rest) := by
  induction first generalizing s with
  | nil => rfl
  | cons symbol first ih =>
    rw [List.cons_append, spreadList, spreadList]
    cases skip step mask low fuel ((s.2 + step) &&& mask) with
    | none => rfl
    | some next => exact ih _

theorem spreadSymbol_eq (mask fuel symbol count : Nat) (s : Spreading × Nat) :
    spreadSymbol step mask low fuel symbol count s =
      spreadList step mask low fuel (List.replicate count symbol) s := by
  induction count generalizing s with
  | zero => rfl
  | succ count ih =>
    rw [spreadSymbol, List.replicate_succ, spreadList]
    cases skip step mask low fuel ((s.2 + step) &&& mask) with
    | none => rfl
    | some next => exact ih _

theorem spreadSymbols_eq (mask fuel symbol : Nat) (s : Spreading × Nat) (counts : List Int) :
    spreadSymbols step mask low fuel symbol s counts =
      spreadList step mask low fuel (spreadOrder symbol counts) s := by
  induction counts generalizing symbol s with
  | nil => rfl
  | cons count counts ih =>
    rw [spreadSymbols, spreadOrder, spreadList_append, spreadSymbol_eq]
    exact congrArg _ (funext fun s => ih (symbol + 1) s)

/-- Spreading the symbols walks over the table once and assigns every free cell. -/
theorem spreadList_spec (hc : Nat.Coprime (2 ^ accuracyLog) step) (hlow : low ≤ 2 ^ accuracyLog)
    {fuel i : Nat} (hfuel : 2 ^ accuracyLog ≤ fuel) {s : Spreading} {assigned rest : List Nat}
    (hlen : 2 ^ accuracyLog ≤ s.entries.length) (h : Assigned s assigned)
    (hlast : ∀ cell ∈ last, low ≤ cell)
    (hcells : s.cells = last ++ visited (2 ^ accuracyLog) step low i)
    (hi : i ≤ 2 ^ accuracyLog) (hpos : position accuracyLog step i < low)
    (hrest : (visited (2 ^ accuracyLog) step low i).length + rest.length = low)
    (hsym : ∀ symbol ∈ rest, symbol < 2 ^ 8) :
    ∃ s', spreadList step (2 ^ accuracyLog - 1) low fuel rest
        (s, position accuracyLog step i) = some (s', 0) ∧
      s'.entries.length = s.entries.length ∧ Assigned s' (assigned ++ rest) ∧
      s'.cells = last ++ visited (2 ^ accuracyLog) step low (2 ^ accuracyLog) := by
  have hn : 0 < 2 ^ accuracyLog := Nat.two_pow_pos _
  induction rest generalizing s assigned i with
  | nil =>
    have hend := eq_of_visited_length hn hc hlow hi hpos hrest
    subst hend
    refine ⟨s, ?_, rfl, ?_, hcells⟩
    · rw [spreadList, position_end]
    · rwa [List.append_nil]
  | cons symbol rest ih =>
    rw [List.length_cons] at hrest
    have hlt : i < 2 ^ accuracyLog := by
      refine Nat.lt_of_le_of_ne hi fun he => ?_
      rw [he, visited_length hn hc hlow] at hrest
      omega
    -- The walk has not met this cell, and the last cells are not below `low`.
    have hnew : position accuracyLog step i ∉ s.cells := by
      rw [hcells, List.mem_append]
      rintro (hmem | hmem)
      · exact absurd hpos (Nat.not_lt.mpr (hlast _ hmem))
      · obtain ⟨k, hk, hplace, _⟩ := mem_visited.mp hmem
        exact absurd (walk_inj hc (hk.trans hlt) hlt hplace) (Nat.ne_of_lt hk)
    have hwithin : position accuracyLog step i < s.entries.length := by omega
    have hassign := h.assign hnew hwithin (hsym symbol List.mem_cons_self)
    have hsize := s.assign_length (position accuracyLog step i) symbol
    have hstep := visited_succ_of_lt hpos
    have hfuel : 2 ^ accuracyLog - (i + 1) < fuel := by omega
    obtain ⟨j, hj, hposj, hskip, hv⟩ : ∃ j ≤ 2 ^ accuracyLog, position accuracyLog step j < low ∧
        skip step (2 ^ accuracyLog - 1) low fuel (position accuracyLog step (i + 1)) =
          some (position accuracyLog step j) ∧
        visited (2 ^ accuracyLog) step low j = visited (2 ^ accuracyLog) step low (i + 1) :=
      skip_spec (Nat.zero_lt_of_lt hpos) hlt hfuel
    rw [hstep] at hv
    have hcells' : (s.assign (position accuracyLog step i) symbol).cells =
        last ++ visited (2 ^ accuracyLog) step low j := by
      rw [hv, ← List.append_assoc, ← hcells]
      rfl
    have hrest' : (visited (2 ^ accuracyLog) step low j).length + rest.length = low := by
      rw [hv, List.length_append, List.length_singleton]
      omega
    obtain ⟨s', hok, hsize', ha, hc'⟩ := ih (hsize ▸ hlen) hassign hcells' hj hposj hrest'
      fun symbol hmem => hsym symbol (List.mem_cons_of_mem _ hmem)
    refine ⟨s', ?_, hsize'.trans hsize, ?_, hc'⟩
    · rw [spreadList, position_succ, hskip]
      exact hok
    · rwa [List.append_assoc] at ha

end

end ErbslandCore.Compression.Zstandard
