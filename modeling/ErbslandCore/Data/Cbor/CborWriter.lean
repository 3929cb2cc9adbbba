import ErbslandCore.Data.Cbor.CborHead

namespace ErbslandCore.Data.Cbor
open Library Mem Text
set_option autoImplicit true

section values
variable {τ : Type}

mutual

/-- The number of values that a parser counts. -/
def CborValue.valueCount : CborValue τ → Nat
  | .array items => 1 + itemsCount items
  | .map entries => 1 + entriesCount entries
  | .link _ => 2
  | _ => 1

def itemsCount : List (CborValue τ) → Nat
  | [] => 0
  | item :: items => item.valueCount + itemsCount items

def entriesCount : List (List UInt8 × CborValue τ) → Nat
  | [] => 0
  | (_, entry) :: entries => 1 + entry.valueCount + entriesCount entries

end

/-- The limits on the nesting of containers and on the length of texts, at a nesting depth. -/
inductive Fits (o : CborParseOptions) : Nat → CborValue τ → Prop where
  | text (length : value.length ≤ o.maximumStringLength) : Fits o depth (.text value)
  | array (nesting : depth < o.maximumNesting) (items : ∀ v ∈ vs, Fits o (depth + 1) v) :
      Fits o depth (.array vs)
  | map (nesting : depth < o.maximumNesting)
      (keys : ∀ e ∈ es, e.1.length ≤ o.maximumStringLength)
      (entries : ∀ e ∈ es, Fits o (depth + 1) e.2) : Fits o depth (.map es)
  | null : Fits o depth .null
  | bool : Fits o depth (.bool value)
  | signed : Fits o depth (.signed value)
  | unsigned : Fits o depth (.unsigned value)
  | float : Fits o depth (.float bits)
  | bytes : Fits o depth (.bytes value)
  | link : Fits o depth (.link cid)

variable (format : CborFormatOptions)

mutual

/-- The value that is read back: integers from zero on are unsigned, and the strict profile has no
negative zero. -/
def CborValue.stored : CborValue τ → CborValue τ
  | .signed number =>
    if number.toInt ≥ 0 then .unsigned (UInt64.ofNat number.toInt.toNat) else .signed number
  | .float bits => .float (if format.dagCbor ∧ isZero bits then 0 else bits)
  | .array items => .array (storedItems items)
  | .map entries => .map (storedEntries entries)
  | v => v

def storedItems : List (CborValue τ) → List (CborValue τ)
  | [] => []
  | item :: items => item.stored :: storedItems items

def storedEntries : List (List UInt8 × CborValue τ) → List (List UInt8 × CborValue τ)
  | [] => []
  | (key, entry) :: entries => (key, entry.stored) :: storedEntries entries

end

/-- The values that have an encoding and no date. -/
inductive WellFormed : CborValue τ → Prop where
  | null : WellFormed .null
  | bool : WellFormed (.bool value)
  | signed : WellFormed (.signed value)
  | unsigned : WellFormed (.unsigned value)
  | float (finite : format.dagCbor = true → isFinite bits = true) : WellFormed (.float bits)
  | text (valid : Utf8.isValid value = true) : WellFormed (.text value)
  | bytes : WellFormed (.bytes value)
  | array (items : ∀ v ∈ vs, WellFormed v) : WellFormed (.array vs)
  | map (sorted : StringMap.Sorted es) (keys : ∀ e ∈ es, Utf8.isValid e.1 = true)
      (entries : ∀ e ∈ es, WellFormed e.2) : WellFormed (.map es)
  | link (valid : validCid cid = true) : WellFormed (.link cid)

theorem storedItems_eq (items : List (CborValue τ)) :
    storedItems format items = items.map (·.stored format) := by
  induction items with
  | nil => rfl
  | cons item items ih => rw [storedItems, ih, List.map_cons]

theorem storedEntries_eq (entries : List (List UInt8 × CborValue τ)) :
    storedEntries format entries = entries.map fun e => (e.1, e.2.stored format) := by
  induction entries with
  | nil => rfl
  | cons entry entries ih => rw [storedEntries, ih, List.map_cons]

theorem entriesCount_eq (entries : List (List UInt8 × CborValue τ)) :
    entriesCount entries = (entries.map fun e => 1 + e.2.valueCount).sum := by
  induction entries with
  | nil => rfl
  | cons entry entries ih => rw [entriesCount, ih, List.map_cons, List.sum_cons]

theorem length_le_itemsCount (items : List (CborValue τ)) : items.length ≤ itemsCount items := by
  have pos (v : CborValue τ) : 1 ≤ v.valueCount := by
    cases v <;> simp [CborValue.valueCount]
  induction items with
  | nil => exact le_refl _
  | cons item items ih =>
    have := pos item
    rw [itemsCount, List.length_cons]
    omega

theorem length_le_entriesCount (entries : List (List UInt8 × CborValue τ)) :
    entries.length ≤ entriesCount entries := by
  induction entries with
  | nil => exact le_refl _
  | cons entry entries ih =>
    rw [entriesCount, List.length_cons]
    omega

end values

section writer
variable {clock : Clock} (format : CborFormatOptions)

theorem writtenEntries_eq (entries : List (List UInt8 × CborValue clock.Timestamp)) :
    writtenEntries clock format entries = entries.map fun e => (e.1, writeValue clock format e.2) := by
  induction entries with
  | nil => rw [writtenEntries, List.map_nil]
  | cons entry entries ih => rw [writtenEntries, ih, List.map_cons]

/-- The bytes of a text. -/
def textBytes (key : List UInt8) : List UInt8 := writeHead 3 key.length ++ key

theorem writeText_valid (h : Utf8.isValid key = true) :
    writeText format key = .ok (textBytes key) := by
  rw [writeText, if_neg (by simp [h]), Utf8.toStdString_of_valid h]
  rfl

theorem keyLess_iff (a b : List UInt8) : keyLess a b = true ↔
    a.length < b.length ∨ a.length = b.length ∧ Utf8.characters a < Utf8.characters b := by
  unfold keyLess
  split_ifs with h
  · simpa using fun he _ => absurd he h
  · simp [compare_lt_iff, not_not.mp h]

theorem keyLess_textBytes (ha : Utf8.isValid a = true) (hb : Utf8.isValid b = true)
    (hlen : b.length < 2 ^ 64) (h : keyLess a b = true) : textBytes a < textBytes b := by
  rcases (keyLess_iff a b).mp h with hlt | ⟨heq, hlt⟩
  · exact writeHead_lt (by decide) hlt hlen _ _
  · rw [textBytes, textBytes, heq]
    apply append_lt_append
    rwa [← compare_lt_iff_bytes ha hb, compare_lt_iff]

theorem textBytes_keyLess (ha : Utf8.isValid a = true) (hb : Utf8.isValid b = true)
    (hlen : a.length < 2 ^ 64) (h : textBytes a < textBytes b) : keyLess a b = true := by
  rw [keyLess_iff]
  by_contra hn
  rcases Nat.lt_trichotomy b.length a.length with hlt | heq | hgt
  · exact List.lt_asymm h (keyLess_textBytes hb ha hlen ((keyLess_iff b a).mpr (.inl hlt)))
  · rcases lt_trichotomy (Utf8.characters a) (Utf8.characters b) with hlt | he | hgt
    · exact hn (.inr ⟨heq.symm, hlt⟩)
    · obtain rfl := eq_of_compare_eq ha hb ((compare_eq_iff a b).mpr he)
      exact List.lt_irrefl _ h
    · exact List.lt_asymm h
        (keyLess_textBytes hb ha hlen ((keyLess_iff b a).mpr (.inr ⟨heq, hgt⟩)))
  · exact hn (.inl hgt)

theorem sortEntries_perm (entries : StringMap α) : (sortEntries entries).Perm entries :=
  List.mergeSort_perm _ _

theorem keyLess_trans (h₁ : keyLess a b = true) (h₂ : keyLess b c = true) :
    keyLess a c = true := by
  rw [keyLess_iff] at h₁ h₂ ⊢
  rcases h₁ with h₁ | ⟨e₁, h₁⟩ <;> rcases h₂ with h₂ | ⟨e₂, h₂⟩
  · exact .inl (by omega)
  · exact .inl (by omega)
  · exact .inl (by omega)
  · exact .inr ⟨by omega, lt_trans h₁ h₂⟩

theorem not_keyLess_iff (a b : List UInt8) : (!keyLess b a) = true ↔
    a.length < b.length ∨ a.length = b.length ∧ Utf8.characters a ≤ Utf8.characters b := by
  rw [Bool.not_eq_true', ← Bool.not_eq_true, keyLess_iff]
  constructor
  · intro h
    rw [not_or, not_and, not_lt] at h
    rcases Nat.lt_or_eq_of_le h.1 with hlt | heq
    · exact .inl hlt
    · exact .inr ⟨heq, not_lt.mp (h.2 heq.symm)⟩
  · rintro (h | ⟨he, h⟩) (h' | ⟨he', h'⟩)
    · omega
    · omega
    · omega
    · exact absurd h' (not_lt.mpr h)

theorem sortEntries_pairwise (entries : StringMap α) :
    (sortEntries entries).Pairwise fun a b => (!keyLess b.1 a.1) = true := by
  refine List.pairwise_mergeSort ?_ ?_ entries
  · intro a b c h₁ h₂
    rw [not_keyLess_iff] at h₁ h₂ ⊢
    rcases h₁ with h₁ | ⟨e₁, h₁⟩ <;> rcases h₂ with h₂ | ⟨e₂, h₂⟩
    · exact .inl (by omega)
    · exact .inl (by omega)
    · exact .inl (by omega)
    · exact .inr ⟨by omega, le_trans h₁ h₂⟩
  · intro a b
    rw [Bool.or_eq_true, not_keyLess_iff, not_keyLess_iff]
    rcases Nat.lt_trichotomy a.1.length b.1.length with h | h | h
    · exact .inl (.inl h)
    · exact (le_total (Utf8.characters a.1) (Utf8.characters b.1)).imp
        (fun hc => .inr ⟨h, hc⟩) fun hc => .inr ⟨h.symm, hc⟩
    · exact .inr (.inl h)

/-- Entries of a map are strictly ordered by the writer. -/
theorem sortEntries_strict {entries : StringMap α} (h : StringMap.Sorted entries) :
    (sortEntries entries).Pairwise fun a b => keyLess a.1 b.1 = true := by
  have hd := h.distinct.perm (sortEntries_perm entries).symm
  refine (sortEntries_pairwise entries).imp₂ (fun {a b} hab hne => ?_) hd
  rw [not_keyLess_iff] at hab
  rw [keyLess_iff]
  refine hab.imp_right fun ⟨he, hle⟩ => ⟨he, lt_of_le_of_ne hle fun hc => hne ?_⟩
  exact (compare_eq_iff _ _).mpr hc.symm

theorem sortEntries_map (f : α → β) (entries : StringMap α) :
    sortEntries (entries.map fun e => (e.1, f e.2)) =
      (sortEntries entries).map fun e => (e.1, f e.2) :=
  (List.map_mergeSort (f := fun e : List UInt8 × α => (e.1, f e.2)) fun _ _ _ _ => rfl).symm

/-- The entries in the order of the writer. -/
def writtenOrder (entries : StringMap α) : StringMap α :=
  if format.dagCbor then sortEntries entries else entries

theorem writtenOrder_perm (entries : StringMap α) : (writtenOrder format entries).Perm entries := by
  unfold writtenOrder
  split
  · exact sortEntries_perm entries
  · exact List.Perm.refl _

theorem writeValue_map (entries : List (List UInt8 × CborValue clock.Timestamp)) :
    writeValue clock format (.map entries) = (do
      let entries' ← writeEntries format
        ((writtenOrder format entries).map fun e => (e.1, writeValue clock format e.2))
      return writeHead 5 entries.length ++ entries') := by
  rw [writeValue, writtenEntries_eq, sortEntries_map, writtenOrder]
  split <;> rfl

theorem writeItems_ok {items : List (CborValue clock.Timestamp)}
    (h : ∀ v ∈ items, ∃ bytes, writeValue clock format v = .ok bytes) :
    ∃ bytes, writeItems clock format items = .ok bytes := by
  induction items with
  | nil => exact ⟨[], by rw [writeItems]; rfl⟩
  | cons item items ih =>
    obtain ⟨bytes, hb⟩ := h item (List.mem_cons_self ..)
    obtain ⟨rest, hr⟩ := ih fun v hv => h v (List.mem_cons_of_mem _ hv)
    exact ⟨bytes ++ rest, by rw [writeItems, hb, hr]; rfl⟩

theorem writeEntries_ok {entries : List (List UInt8 × CborValue clock.Timestamp)}
    (hk : ∀ e ∈ entries, Utf8.isValid e.1 = true)
    (h : ∀ e ∈ entries, ∃ bytes, writeValue clock format e.2 = .ok bytes) :
    ∃ bytes, writeEntries format
      (entries.map fun e => (e.1, writeValue clock format e.2)) = .ok bytes := by
  induction entries with
  | nil => exact ⟨[], rfl⟩
  | cons entry entries ih =>
    obtain ⟨bytes, hb⟩ := h entry (List.mem_cons_self ..)
    obtain ⟨rest, hr⟩ := ih (fun e he => hk e (List.mem_cons_of_mem _ he))
      fun e he => h e (List.mem_cons_of_mem _ he)
    refine ⟨textBytes entry.1 ++ bytes ++ rest, ?_⟩
    rw [List.map_cons, writeEntries, writeText_valid format (hk entry (List.mem_cons_self ..)), hb,
      hr]
    rfl

/-- The writer has no error for a well-formed value. -/
theorem writeValue_ok {v : CborValue clock.Timestamp} (h : WellFormed format v) :
    ∃ bytes, writeValue clock format v = .ok bytes := by
  induction h with
  | null => exact ⟨_, by rw [writeValue]; rfl⟩
  | bool => exact ⟨_, by rw [writeValue]; rfl⟩
  | @signed number =>
    by_cases hn : number.toInt ≥ 0
    · exact ⟨_, by rw [writeValue, if_pos hn]; rfl⟩
    · exact ⟨_, by rw [writeValue, if_neg hn]; rfl⟩
  | unsigned => exact ⟨_, by rw [writeValue]; rfl⟩
  | @float bits finite =>
    refine ⟨0xFB :: toBigEndian 8 (if format.dagCbor ∧ isZero bits then 0 else bits).toNat, ?_⟩
    rw [writeValue, writeFloat, if_neg fun h => h.2 (finite h.1)]
    rfl
  | text valid => exact ⟨_, by rw [writeValue, writeText_valid format valid]⟩
  | bytes => exact ⟨_, by rw [writeValue]; rfl⟩
  | array _ ih =>
    obtain ⟨bytes, hb⟩ := writeItems_ok format ih
    exact ⟨_, by rw [writeValue, hb]; rfl⟩
  | @map entries _ keys _ ih =>
    have hp := writtenOrder_perm format entries
    obtain ⟨bytes, hb⟩ := writeEntries_ok format
      (fun e he => keys e (hp.mem_iff.mp he)) fun e he => ih e (hp.mem_iff.mp he)
    exact ⟨_, by rw [writeValue_map, hb]; rfl⟩
  | link valid => exact ⟨_, by rw [writeValue, if_neg (by simp [valid])]; rfl⟩

theorem writeText_ne_nil (h : writeText format key = .ok bytes) : bytes ≠ [] := by
  unfold writeText at h
  split at h
  · cases h
  · obtain rfl := Except.ok.inj h
    exact List.append_ne_nil_of_left_ne_nil (writeHead_ne_nil 3 _) _

theorem textBytes_ne_nil (key : List UInt8) : textBytes key ≠ [] :=
  List.append_ne_nil_of_left_ne_nil (writeHead_ne_nil 3 _) _

theorem writeValue_ne_nil {v : CborValue clock.Timestamp}
    (h : writeValue clock format v = .ok bytes) : bytes ≠ [] := by
  cases v with
  | null | bool | unsigned =>
    rw [writeValue] at h
    obtain rfl := Except.ok.inj h
    first | exact List.cons_ne_nil _ _ | exact writeHead_ne_nil _ _
  | signed number =>
    rw [writeValue] at h
    split at h <;>
    · obtain rfl := Except.ok.inj h
      exact writeHead_ne_nil _ _
  | float number =>
    rw [writeValue, writeFloat] at h
    split at h
    · cases h
    · obtain rfl := Except.ok.inj h
      exact List.cons_ne_nil _ _
  | text value =>
    rw [writeValue] at h
    exact writeText_ne_nil format h
  | bytes value =>
    rw [writeValue] at h
    obtain rfl := Except.ok.inj h
    exact List.append_ne_nil_of_left_ne_nil (writeHead_ne_nil _ _) _
  | array items =>
    rw [writeValue] at h
    obtain ⟨bytes', -, h⟩ := bind_eq_ok h
    obtain rfl := Except.ok.inj h
    exact List.append_ne_nil_of_left_ne_nil (writeHead_ne_nil _ _) _
  | map entries =>
    rw [writeValue_map] at h
    obtain ⟨bytes', -, h⟩ := bind_eq_ok h
    obtain rfl := Except.ok.inj h
    exact List.append_ne_nil_of_left_ne_nil (writeHead_ne_nil _ _) _
  | dateTime date =>
    rw [writeValue] at h
    split at h
    · cases h
    · split at h
      · cases h
      · obtain ⟨bytes', -, h⟩ := bind_eq_ok h
        obtain rfl := Except.ok.inj h
        exact List.append_ne_nil_of_left_ne_nil (writeHead_ne_nil _ _) _
  | link cid =>
    rw [writeValue] at h
    split at h
    · cases h
    · obtain rfl := Except.ok.inj h
      rw [List.append_assoc]
      exact List.append_ne_nil_of_left_ne_nil (writeHead_ne_nil _ _) _

end writer
end ErbslandCore.Data.Cbor
