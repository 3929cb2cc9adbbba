import ErbslandCore.Path.PathRoots

namespace ErbslandCore.Path
open Library Text
set_option autoImplicit true

theorem normalizedSeparator_of_separates (h : separates c = true) : normalizedSeparator c = slash := by
  rcases (separates_iff c).mp h with rfl | rfl
  · rfl
  · rfl

theorem not_separates_iff (c : Nat) : separates c = false ↔ c ≠ slash ∧ c ≠ backslash := by
  rw [← Bool.not_eq_true, separates_iff, not_or]

theorem normalizedSeparator_of_not (h : separates c = false) : normalizedSeparator c = c :=
  if_neg ((not_separates_iff c).mp h).2

theorem separates_of_letter (h : isAsciiLetter c = true) : separates c = false := by
  rw [not_separates_iff]
  constructor
  · rintro rfl
    cases h
  · rintro rfl
    cases h

/-- The element would be read as the begin of a native path of Windows. -/
def NtElement (element : List Nat) : Prop :=
  Reader.normalized element = [0x3F, 0x3F] ∨ [0x3F, 0x3F, 0x2F] <+: Reader.normalized element

/-- The rest of a text behind an element. -/
def AfterElement (rest : List Nat) : Prop := ∀ c ∈ rest.head?, separates c = true

namespace Reader
variable {r r' : Reader} {q : Nat} {element rest : List Nat}

/-- The text of a native path of Windows. -/
def isNt (text : List Nat) : Bool :=
  decide (normalized text = windowsNtPathRoot) ||
    windowsNtPathPrefix.isPrefixOf (normalized text)

theorem isNt_separator (hq : separates q = true) (hrest : AfterElement rest) :
    isNt (q :: (element ++ rest)) = true ↔ NtElement element := by
  have hend : normalized rest = [] ∨ ∃ after, normalized rest = slash :: after := by
    cases rest with
    | nil => exact .inl rfl
    | cons c rest =>
      refine .inr ⟨normalized rest, ?_⟩
      rw [normalized, List.map_cons, normalizedSeparator_of_separates (hrest c rfl), normalized]
  have hnormalized : normalized (q :: (element ++ rest)) =
      slash :: (normalized element ++ normalized rest) := by
    rw [normalized, List.map_cons, List.map_append, normalizedSeparator_of_separates hq,
      normalized, normalized]
  rw [isNt, hnormalized, Bool.or_eq_true, decide_eq_true_iff, List.isPrefixOf_iff_prefix, NtElement,
    windowsNtPathRoot, windowsNtPathPrefix]
  generalize normalized element = e
  rcases hend with hnil | ⟨after, hcons⟩
  · rw [hnil, List.append_nil]
    simp [slash, List.cons_prefix_cons]
  · rw [hcons]
    rcases e with _ | ⟨a, _ | ⟨b, _ | ⟨c, e⟩⟩⟩
    · simp [slash, List.cons_prefix_cons]
    · simp [slash, List.cons_prefix_cons]
    · simp only [slash, List.cons_append, List.nil_append, List.cons_prefix_cons,
        List.nil_prefix, List.cons.injEq, reduceCtorEq, and_false, or_false, false_or, true_and,
        and_true, List.prefix_nil]
      constructor
      · rintro ⟨rfl, rfl⟩
        exact ⟨rfl, rfl⟩
      · rintro ⟨rfl, rfl⟩
        exact ⟨rfl, rfl⟩
    · simp [slash, List.cons_prefix_cons]

theorem parseWindowsRoot_probe (h : Readable r) : r.parseWindowsRoot =
    if decide (normalized r.unread = windowsDevicePathRoot) ||
        windowsDevicePathPrefix.isPrefixOf (normalized r.unread) then
      r.throwParseError "Windows device paths are not supported"
    else if isNt r.unread then r.throwParseError "Windows NT paths are not supported"
    else if windowsExtendedPathPrefix.isPrefixOf (normalized r.unread) then
      some <$> r.parseExtendedWindowsRoot
    else if doubleSlash.isPrefixOf (normalized r.unread) then some <$> r.parseUncRoot
    else r.parseDriveRoot := by
  rw [parseWindowsRoot, equalsOrStartsWith_eq h, ok_bind, equalsOrStartsWith_eq h,
    startsWithNormalized_eq h, startsWithNormalized_eq h]
  rfl

theorem not_prefix_of_head (hhead : ∀ c ∈ text.head?, separates c = false) (literal : List Nat) :
    (slash :: literal).isPrefixOf (normalized text) = false := by
  cases text with
  | nil => rfl
  | cons c text =>
    have hc := hhead c rfl
    rw [normalized, List.map_cons, normalizedSeparator_of_not hc, List.isPrefixOf_cons_cons,
      beq_eq_false_iff_ne.mpr (Ne.symm ((not_separates_iff c).mp hc).1), Bool.false_and]

theorem normalized_ne_of_head (hhead : ∀ c ∈ text.head?, separates c = false)
    (literal : List Nat) : normalized text ≠ slash :: literal := by
  intro heq
  have hbegin := not_prefix_of_head hhead literal
  rw [heq, List.isPrefixOf_iff_prefix.mpr (List.prefix_refl _)] at hbegin
  cases hbegin

theorem isNt_of_head (hhead : ∀ c ∈ text.head?, separates c = false) : isNt text = false := by
  have hroot : decide (normalized text = windowsNtPathRoot) = false :=
    decide_eq_false (normalized_ne_of_head hhead [0x3F, 0x3F])
  have hbegin : windowsNtPathPrefix.isPrefixOf (normalized text) = false :=
    not_prefix_of_head hhead [0x3F, 0x3F, 0x2F]
  rw [isNt, hroot, hbegin]
  rfl

/-- A text that begins with no separator has a drive or no root. -/
theorem parseWindowsRoot_of_head (h : Readable r) (hhead : ∀ c ∈ r.unread.head?, separates c = false) :
    r.parseWindowsRoot = r.parseDriveRoot := by
  have hdeviceRoot : decide (normalized r.unread = windowsDevicePathRoot) = false :=
    decide_eq_false (normalized_ne_of_head hhead [0x2F, 0x2E])
  have hdevice : windowsDevicePathPrefix.isPrefixOf (normalized r.unread) = false :=
    not_prefix_of_head hhead [0x2F, 0x2E, 0x2F]
  have hextended : windowsExtendedPathPrefix.isPrefixOf (normalized r.unread) = false :=
    not_prefix_of_head hhead [0x2F, 0x3F, 0x2F]
  have hunc : doubleSlash.isPrefixOf (normalized r.unread) = false :=
    not_prefix_of_head hhead [0x2F]
  rw [parseWindowsRoot_probe h, isNt_of_head hhead, hdeviceRoot, hdevice, hextended, hunc]
  rfl

theorem normalized_piece (h : ∀ c ∈ part, separates c = false) : normalized part = part := by
  have hid : part.map normalizedSeparator = part.map id :=
    List.map_congr_left fun c hc => normalizedSeparator_of_not (h c hc)
  rw [normalized, hid, List.map_id]

theorem normalized_cons (hq : separates q = true) (text : List Nat) :
    normalized (q :: text) = slash :: normalized text := by
  rw [normalized, List.map_cons, normalizedSeparator_of_separates hq, normalized]

section
variable {position : Nat} {server share after : List Nat}

theorem normalized_unc (hq : separates q = true) (hserver : IsPiece separates server) :
    normalized (q :: q :: (server ++ q :: after)) =
      slash :: slash :: (server ++ slash :: normalized after) := by
  rw [normalized_cons hq, normalized_cons hq, normalized, List.map_append, ← normalized,
    normalized_piece hserver.not_separator, ← normalized, normalized_cons hq]

/-- Two separators, one character and a separator begin a special path. -/
theorem special_iff (hserver : IsPiece separates server) (x : Nat) (after : List Nat) :
    [slash, slash, x, slash].isPrefixOf (slash :: slash :: (server ++ slash :: after)) = true ↔
      server = [x] := by
  obtain ⟨c, cs, rfl⟩ := List.exists_cons_of_ne_nil hserver.ne_nil
  rw [List.isPrefixOf_iff_prefix, List.cons_prefix_cons, List.cons_prefix_cons, List.cons_append,
    List.cons_prefix_cons]
  cases cs with
  | nil =>
    rw [List.nil_append, List.cons_prefix_cons]
    constructor
    · rintro ⟨-, -, rfl, -⟩
      rfl
    · rintro ⟨⟩
      exact ⟨rfl, rfl, rfl, rfl, List.nil_prefix⟩
  | cons d cs =>
    have hd := hserver.not_separator d (List.mem_cons_of_mem _ List.mem_cons_self)
    rw [List.cons_append, List.cons_prefix_cons]
    constructor
    · rintro ⟨-, -, -, hslash, -⟩
      exact absurd hslash.symm ((not_separates_iff d).mp hd).1
    · intro h
      cases h

/-- The names of servers that special paths begin with. -/
def SpecialServer (server : List Nat) : Prop := server = [0x2E] ∨ server = [0x3F]

theorem parseUncRoot_eq (hq : separates q = true)
    (h : Readable ⟨q :: q :: (server ++ q :: (share ++ q :: rest)), position⟩)
    (hserver : IsPiece separates server) (hshare : IsPiece separates share) : ∃ position',
    parseUncRoot ⟨q :: q :: (server ++ q :: (share ++ q :: rest)), position⟩ =
      .ok (uncRoot (server.map toAsciiLowercase) share, ⟨rest, position'⟩) ∧
      Readable ⟨rest, position'⟩ := by
  obtain ⟨r', hr', hdrop⟩ := readNormalizedLiteral_eq h doubleSlash
  have hbegin : doubleSlash.isPrefixOf
      (normalized (q :: q :: (server ++ q :: (share ++ q :: rest)))) = true := by
    rw [normalized_cons hq, normalized_cons hq]
    rfl
  rw [hbegin] at hr' hdrop
  obtain rfl := hdrop rfl
  obtain ⟨position', hparse, hreadable⟩ :=
    parseUncServerAndShare_eq hq h.tail.tail hserver hshare
  refine ⟨position', ?_, hreadable⟩
  rw [parseUncRoot, hr', ok_bind]
  exact hparse

/-- The root of a share, unless its server begins a special path. -/
theorem parseWindowsRoot_unc (hq : separates q = true)
    (h : Readable ⟨q :: q :: (server ++ q :: (share ++ q :: rest)), position⟩)
    (hserver : IsPiece separates server) (hshare : IsPiece separates share)
    (hallowed : ¬ SpecialServer server) : ∃ position',
    parseWindowsRoot ⟨q :: q :: (server ++ q :: (share ++ q :: rest)), position⟩ =
      .ok (some (uncRoot (server.map toAsciiLowercase) share, ⟨rest, position'⟩)) ∧
      Readable ⟨rest, position'⟩ := by
  obtain ⟨position', hparse, hreadable⟩ := parseUncRoot_eq hq h hserver hshare
  refine ⟨position', ?_, hreadable⟩
  obtain ⟨hdot, hquestion⟩ := not_or.mp hallowed
  have hdevice : windowsDevicePathPrefix.isPrefixOf
      (slash :: slash :: (server ++ slash :: normalized (share ++ q :: rest))) = false := by
    rw [← Bool.not_eq_true]
    exact fun hbegin => hdot ((special_iff hserver _ _).mp hbegin)
  have hextended : windowsExtendedPathPrefix.isPrefixOf
      (slash :: slash :: (server ++ slash :: normalized (share ++ q :: rest))) = false := by
    rw [← Bool.not_eq_true]
    exact fun hbegin => hquestion ((special_iff hserver _ _).mp hbegin)
  have hdeviceRoot : decide (slash :: slash :: (server ++ slash :: normalized (share ++ q :: rest)) =
      windowsDevicePathRoot) = false := by
    apply decide_eq_false
    intro heq
    have hlength := congrArg List.length heq
    have hpos := List.length_pos_iff.mpr hserver.ne_nil
    simp only [windowsDevicePathRoot, List.length_cons, List.length_append, List.length_nil]
      at hlength
    omega
  have hnt : isNt (q :: q :: (server ++ q :: (share ++ q :: rest))) = false := by
    rw [isNt, normalized_unc hq hserver, Bool.or_eq_false_iff]
    exact ⟨decide_eq_false nofun, rfl⟩
  rw [parseWindowsRoot_probe h]
  simp only
  rw [hnt, normalized_unc hq hserver, hdeviceRoot, hdevice, hextended, hparse]
  rfl

/-- One separator without a drive behind it is no root of Windows. -/
theorem parseWindowsRoot_slash (hq : separates q = true) (h : Readable ⟨q :: after, position⟩)
    (hafter : ∀ c ∈ after.head?, separates c = false) (hnt : isNt (q :: after) = false) :
    parseWindowsRoot ⟨q :: after, position⟩ = .ok none := by
  have hsecond (literal : List Nat) :
      (slash :: slash :: literal).isPrefixOf (normalized (q :: after)) = false := by
    rw [normalized_cons hq]
    cases after with
    | nil => rfl
    | cons c after =>
      have hc := hafter c rfl
      rw [normalized, List.map_cons, normalizedSeparator_of_not hc, List.isPrefixOf_cons_cons,
        List.isPrefixOf_cons_cons,
        beq_eq_false_iff_ne.mpr (Ne.symm ((not_separates_iff c).mp hc).1), Bool.false_and,
        Bool.and_false]
  have hdeviceRoot : decide (normalized (q :: after) = windowsDevicePathRoot) = false := by
    apply decide_eq_false
    intro heq
    have hbegin := hsecond [0x2E]
    rw [heq] at hbegin
    cases hbegin
  have hdevice : windowsDevicePathPrefix.isPrefixOf (normalized (q :: after)) = false :=
    hsecond [0x2E, 0x2F]
  have hextended : windowsExtendedPathPrefix.isPrefixOf (normalized (q :: after)) = false :=
    hsecond [0x3F, 0x2F]
  have hunc : doubleSlash.isPrefixOf (normalized (q :: after)) = false := hsecond []
  have hdrive : parseDriveRoot ⟨q :: after, position⟩ = .ok none := by
    apply parseDriveRoot_none h
    rintro ⟨drive, rest, heq, hletter⟩
    cases heq
    rw [separates_of_letter hletter] at hq
    cases hq
  rw [parseWindowsRoot_probe h]
  simp only
  rw [hdeviceRoot, hdevice, hnt, hextended, hunc, hdrive]
  rfl

/-! ### Extended roots -/

/-- The text before an extended root. -/
def extendedText (q : Nat) (text : List Nat) : List Nat := q :: q :: 0x3F :: q :: text

theorem normalized_extended (hq : separates q = true) (text : List Nat) :
    normalized (extendedText q text) = windowsExtendedPathPrefix ++ normalized text := by
  rw [extendedText, normalized_cons hq, normalized_cons hq, normalized, List.map_cons, ← normalized,
    normalized_cons hq]
  rfl

theorem parseWindowsRoot_extended (hq : separates q = true)
    (h : Readable ⟨extendedText q after, position⟩) :
    parseWindowsRoot ⟨extendedText q after, position⟩ =
      some <$> parseExtendedWindowsRoot ⟨extendedText q after, position⟩ := by
  have hnt : isNt (extendedText q after) = false := by
    rw [isNt, normalized_extended hq, Bool.or_eq_false_iff]
    exact ⟨decide_eq_false nofun, rfl⟩
  rw [parseWindowsRoot_probe h]
  simp only
  rw [hnt, normalized_extended hq]
  rfl

theorem readExtendedPrefix (hq : separates q = true)
    (h : Readable ⟨extendedText q after, position⟩) :
    readNormalizedLiteral windowsExtendedPathPrefix ⟨extendedText q after, position⟩ =
      .ok (true, ⟨after, position + 4⟩) := by
  obtain ⟨r', hr', hdrop⟩ := readNormalizedLiteral_eq h windowsExtendedPathPrefix
  have hbegin : windowsExtendedPathPrefix.isPrefixOf (normalized (extendedText q after)) = true := by
    rw [normalized_extended hq, List.isPrefixOf_iff_prefix]
    exact List.prefix_append _ _
  rw [hr', hdrop hbegin, hbegin]
  rfl

theorem parseWindowsRoot_extendedDrive (hq : separates q = true)
    (h : Readable ⟨extendedText q (drive :: 0x3A :: q :: rest), position⟩)
    (hdrive : isAsciiLetter drive = true) : ∃ position',
    parseWindowsRoot ⟨extendedText q (drive :: 0x3A :: q :: rest), position⟩ =
      .ok (some (toAsciiLowercase drive :: driveRootSuffix, ⟨rest, position'⟩)) ∧
      Readable ⟨rest, position'⟩ := by
  have hafter : Readable ⟨drive :: 0x3A :: q :: rest, position + 4⟩ := Readable.drop [q, q, 0x3F, q] h
  have hunc : uncPrefix.isPrefixOf (normalized (drive :: 0x3A :: q :: rest)) = false := by
    rw [normalized, List.map_cons, List.map_cons, uncPrefix, List.isPrefixOf_cons_cons]
    exact Bool.and_false _
  refine ⟨_, ?_, hafter.tail.tail.tail⟩
  rw [parseWindowsRoot_extended hq h, parseExtendedWindowsRoot, readExtendedPrefix hq h, ok_bind]
  simp only [Bool.not_true, Bool.false_eq_true, if_false]
  rw [startsWithNormalized_eq hafter, ok_bind, hunc, if_neg Bool.false_ne_true,
    parseDriveRoot_eq hafter hdrive hq]
  rfl

theorem parseWindowsRoot_extendedUnc (hq : separates q = true)
    (h : Readable ⟨extendedText q (0x55 :: 0x4E :: 0x43 :: q :: (server ++ q :: (share ++ q :: rest))),
      position⟩)
    (hserver : IsPiece separates server) (hshare : IsPiece separates share) : ∃ position',
    parseWindowsRoot ⟨extendedText q
        (0x55 :: 0x4E :: 0x43 :: q :: (server ++ q :: (share ++ q :: rest))), position⟩ =
      .ok (some (uncRoot (server.map toAsciiLowercase) share, ⟨rest, position'⟩)) ∧
      Readable ⟨rest, position'⟩ := by
  have hafter : Readable
      ⟨0x55 :: 0x4E :: 0x43 :: q :: (server ++ q :: (share ++ q :: rest)), position + 4⟩ :=
    Readable.drop [q, q, 0x3F, q] h
  obtain ⟨r', hr', hdrop⟩ := readNormalizedLiteral_eq hafter uncPrefix
  have hunc : uncPrefix.isPrefixOf (normalized
      (0x55 :: 0x4E :: 0x43 :: q :: (server ++ q :: (share ++ q :: rest)))) = true := by
    rw [normalized, List.map_cons, List.map_cons, List.map_cons, ← normalized, normalized_cons hq]
    rfl
  obtain ⟨position', hparse, hreadable⟩ := parseUncServerAndShare_eq hq
    (Readable.drop [0x55, 0x4E, 0x43, q] hafter) hserver hshare
  refine ⟨position', ?_, hreadable⟩
  rw [parseWindowsRoot_extended hq h, parseExtendedWindowsRoot, readExtendedPrefix hq h, ok_bind]
  simp only [Bool.not_true, Bool.false_eq_true, if_false]
  rw [startsWithNormalized_eq hafter, ok_bind, hunc, if_pos rfl]
  rw [hunc] at hr' hdrop
  rw [hr', ok_bind, hdrop rfl]
  simp only [Bool.not_true, Bool.false_eq_true, if_false]
  exact congrArg (some <$> ·) hparse

end

end Reader

end ErbslandCore.Path
