import ErbslandCore.Path.PathReading

namespace ErbslandCore.Path
open Library Text
set_option autoImplicit true

/-- Slash and backslash separate. -/
abbrev separates : Nat → Bool := isPathSeparator .slashAndBackslash

theorem separates_iff (c : Nat) : separates c = true ↔ c = slash ∨ c = backslash := by
  simp [separates, isPathSeparator]

/-- The text begins with a letter and a colon. -/
def StartsWithDrive (text : List Nat) : Prop :=
  ∃ drive rest, text = drive :: 0x3A :: rest ∧ isAsciiLetter drive = true

/-- The root of a share of a server. -/
def uncRoot (server share : List Nat) : List Nat :=
  doubleSlash ++ server ++ [slash] ++ share ++ [slash]

/-- The roots of Windows paths. -/
inductive WindowsRoot : List Nat → Prop where
  | drive (h : isAsciiLetter letter = true) :
      WindowsRoot (toAsciiLowercase letter :: driveRootSuffix)
  | unc (hserver : IsPiece separates server) (hshare : IsPiece separates share) :
      WindowsRoot (uncRoot (server.map toAsciiLowercase) share)

/-- The reader has read on to a position in range. -/
def ReadsOn (r r' : Reader) : Prop :=
  (∃ consumed, ReadsTo r r' consumed) ∧ r'.position ≤ maximumPathCharacters

theorem ReadsOn.refl (h : r.position ≤ maximumPathCharacters) : ReadsOn r r := ⟨⟨[], .refl r⟩, h⟩

theorem ReadsOn.trans (h : ReadsOn r r₁) (h' : ReadsOn r₁ r₂) : ReadsOn r r₂ := by
  obtain ⟨⟨consumed, hreads⟩, -⟩ := h
  obtain ⟨⟨consumed', hreads'⟩, hbound⟩ := h'
  exact ⟨⟨consumed ++ consumed', hreads.trans hreads'⟩, hbound⟩

theorem ReadsOn.readable (h : ReadsOn r r') (hr : Readable r') : Readable r := by
  obtain ⟨⟨consumed, hreads⟩, -⟩ := h
  exact hreads.readable hr

namespace Reader
variable {r r' : Reader} {unread : List Nat} {position : Nat}

theorem any_eq_true {character : Option Nat} {p : Nat → Bool} (h : character.any p = true) :
    ∃ c, character = some c ∧ p c = true := by
  cases character with
  | none => cases h
  | some c => exact ⟨c, rfl, h⟩

theorem readCharacter_readsOn (hposition : r.position ≤ maximumPathCharacters)
    (h : r.readCharacter = .ok (character, r')) : ReadsOn r r' := by
  rcases readCharacter_cases h with ⟨-, -, rfl⟩ | ⟨c, -, hreads, hbound⟩
  · exact .refl hposition
  · exact ⟨⟨[c], hreads⟩, hbound⟩

theorem parseDriveRoot_some (h : r.parseDriveRoot = .ok (some (root, r'))) :
    WindowsRoot root ∧ ReadsOn r r' := by
  obtain ⟨⟨drive, r₁⟩, hdrive, h⟩ := bind_eq_ok h
  simp only at h
  split_ifs at h with hletter
  · obtain ⟨letter, rfl, hletter⟩ := any_eq_true hletter
    obtain ⟨⟨colon, r₂⟩, hcolon, h⟩ := bind_eq_ok h
    simp only at h
    split_ifs at h with hc
    · obtain rfl : colon = some 0x3A := hc
      obtain ⟨⟨separator, r₃⟩, hseparator, h⟩ := bind_eq_ok h
      simp only at h
      split_ifs at h with hs
      · obtain ⟨s, rfl, hs⟩ := any_eq_true hs
        cases h
        obtain ⟨hfirst, -⟩ := readCharacter_some hdrive
        obtain ⟨hsecond, -⟩ := readCharacter_some hcolon
        obtain ⟨hthird, hbound⟩ := readCharacter_some hseparator
        exact ⟨.drive hletter, ⟨_, hfirst.trans (hsecond.trans hthird)⟩, hbound⟩
      · cases h
    · cases h
  · cases h

theorem readRootSegment_ok (hposition : position ≤ maximumPathCharacters)
    (h : readRootSegment mode lowercase unread position = .ok (builder, r')) :
    ∃ segment, builder = (if lowercase then segment.map toAsciiLowercase else segment) ∧
      ReadsOn ⟨unread, position⟩ r' ∧ ∀ c ∈ segment, isPathSeparator mode c = false := by
  have hempty : ([] : List Nat) = if lowercase then [].map toAsciiLowercase else [] := by
    cases lowercase <;> rfl
  induction unread generalizing position builder with
  | nil =>
    cases h
    exact ⟨[], hempty, .refl hposition, List.forall_mem_nil _⟩
  | cons c unread ih =>
    rw [readRootSegment] at h
    by_cases hc : isPathSeparator mode c = true
    · rw [if_pos hc] at h
      cases h
      exact ⟨[], hempty, .refl hposition, List.forall_mem_nil _⟩
    · rw [if_neg hc] at h
      obtain ⟨result, hread, h⟩ := bind_eq_ok h
      obtain ⟨⟨builder', r₁⟩, hrest, h⟩ := bind_eq_ok h
      cases h
      obtain ⟨hvalid, hbound⟩ := readCharacter_at hread
      obtain ⟨segment, rfl, hreads, hsegment⟩ := ih hbound hrest
      have hfirst : ReadsOn ⟨c :: unread, position⟩ ⟨unread, position + 1⟩ := by
        refine ⟨⟨[c], rfl, rfl, ?_⟩, hbound⟩
        intro c' hc'
        rw [List.mem_singleton.mp hc']
        exact hvalid
      refine ⟨c :: segment, ?_, hfirst.trans hreads, ?_⟩
      · cases lowercase <;> rfl
      · intro c' hc'
        rcases List.mem_cons.mp hc' with rfl | hc'
        · exact Bool.not_eq_true _ ▸ hc
        · exact hsegment c' hc'

theorem consumeSeparator_ok (hposition : r.position ≤ maximumPathCharacters)
    (h : r.consumeSeparator mode = .ok (hasSeparator, r')) : ReadsOn r r' := by
  obtain ⟨⟨character, r₁⟩, hread, h⟩ := bind_eq_ok h
  cases h
  exact readCharacter_readsOn hposition hread

theorem parseUncServerAndShare_ok (hposition : r.position ≤ maximumPathCharacters)
    (h : r.parseUncServerAndShare = .ok (root, r')) : WindowsRoot root ∧ ReadsOn r r' := by
  obtain ⟨⟨server, r₁⟩, hserver, h⟩ := bind_eq_ok h
  obtain ⟨serverText, rfl, hreads₁, hserverText⟩ := readRootSegment_ok hposition hserver
  simp only [if_true] at h
  split_ifs at h with hempty₁
  · cases h
  · obtain ⟨⟨hasSeparator, r₂⟩, hseparator, h⟩ := bind_eq_ok h
    simp only at h
    split_ifs at h with hnone
    · cases h
    · have hreads₂ := hreads₁.trans (consumeSeparator_ok hreads₁.2 hseparator)
      obtain ⟨⟨share, r₃⟩, hshare, h⟩ := bind_eq_ok h
      obtain ⟨shareText, rfl, hreads₃, hshareText⟩ := readRootSegment_ok hreads₂.2 hshare
      split_ifs at h with hempty₂
      · cases h
      · obtain ⟨⟨hasTrailing, r₄⟩, htrailing, h⟩ := bind_eq_ok h
        cases h
        have hserverPiece : IsPiece separates serverText :=
          ⟨fun hnil => hempty₁ (by rw [hnil]; rfl), hserverText⟩
        refine ⟨.unc hserverPiece ⟨hempty₂, hshareText⟩, ?_⟩
        exact (hreads₂.trans hreads₃).trans (consumeSeparator_ok hreads₃.2 htrailing)

theorem readNormalizedLiteral_ok (hposition : r.position ≤ maximumPathCharacters)
    (h : readNormalizedLiteral literal r = .ok (result, r')) : ReadsOn r r' := by
  induction literal generalizing r with
  | nil =>
    cases h
    exact .refl hposition
  | cons expected literal ih =>
    obtain ⟨⟨character, r₁⟩, hread, h⟩ := bind_eq_ok h
    have hreads := readCharacter_readsOn hposition hread
    simp only at h
    split_ifs at h
    · exact hreads.trans (ih hreads.2 h)
    · cases h
      exact hreads

theorem parseUncRoot_ok (hposition : r.position ≤ maximumPathCharacters)
    (h : r.parseUncRoot = .ok (root, r')) : WindowsRoot root ∧ ReadsOn r r' := by
  obtain ⟨⟨hasPrefix, r₁⟩, hliteral, h⟩ := bind_eq_ok h
  have hreads := readNormalizedLiteral_ok hposition hliteral
  simp only at h
  split_ifs at h
  · cases h
  · obtain ⟨hroot, hreads'⟩ := parseUncServerAndShare_ok hreads.2 h
    exact ⟨hroot, hreads.trans hreads'⟩

theorem parseExtendedWindowsRoot_ok (hposition : r.position ≤ maximumPathCharacters)
    (h : r.parseExtendedWindowsRoot = .ok (root, r')) : WindowsRoot root ∧ ReadsOn r r' := by
  obtain ⟨⟨hasPrefix, r₁⟩, hliteral, h⟩ := bind_eq_ok h
  have hreads := readNormalizedLiteral_ok hposition hliteral
  simp only at h
  split_ifs at h
  · cases h
  · obtain ⟨isUnc, -, h⟩ := bind_eq_ok h
    split_ifs at h
    · obtain ⟨⟨hasUncPrefix, r₂⟩, hunc, h⟩ := bind_eq_ok h
      have hreads₂ := hreads.trans (readNormalizedLiteral_ok hreads.2 hunc)
      simp only at h
      split_ifs at h
      · cases h
      · obtain ⟨hroot, hreads'⟩ := parseUncServerAndShare_ok hreads₂.2 h
        exact ⟨hroot, hreads₂.trans hreads'⟩
    · obtain ⟨result, hdrive, h⟩ := bind_eq_ok h
      cases result with
      | none => cases h
      | some result =>
        cases h
        obtain ⟨hroot, hreads'⟩ := parseDriveRoot_some hdrive
        exact ⟨hroot, hreads.trans hreads'⟩

theorem map_some_eq_ok {x : Except ParseError α} (h : some <$> x = .ok (some a)) : x = .ok a := by
  cases x with
  | error e => cases h
  | ok b =>
    cases h
    rfl

/-- The root of a Windows path that was read. -/
theorem parseWindowsRoot_some (hposition : r.position ≤ maximumPathCharacters)
    (h : r.parseWindowsRoot = .ok (some (root, r'))) : WindowsRoot root ∧ ReadsOn r r' := by
  obtain ⟨isDevice, -, h⟩ := bind_eq_ok h
  split_ifs at h
  · cases h
  · obtain ⟨isNt, -, h⟩ := bind_eq_ok h
    split_ifs at h
    · cases h
    · obtain ⟨isExtended, -, h⟩ := bind_eq_ok h
      split_ifs at h
      · exact parseExtendedWindowsRoot_ok hposition (map_some_eq_ok h)
      · obtain ⟨isUnc, -, h⟩ := bind_eq_ok h
        split_ifs at h
        · exact parseUncRoot_ok hposition (map_some_eq_ok h)
        · exact parseDriveRoot_some h

/-! ### Reading roots -/

section
variable {rest : List Nat}

theorem parseDriveRoot_eq (h : Readable ⟨drive :: 0x3A :: separator :: rest, position⟩)
    (hdrive : isAsciiLetter drive = true) (hseparator : separates separator = true) :
    parseDriveRoot ⟨drive :: 0x3A :: separator :: rest, position⟩ =
      .ok (some (toAsciiLowercase drive :: driveRootSuffix, ⟨rest, position + 1 + 1 + 1⟩)) := by
  rw [parseDriveRoot, readCharacter_cons h, ok_bind]
  simp only [Option.any_some, hdrive, if_true]
  rw [readCharacter_cons h.tail, ok_bind]
  simp only [if_true]
  rw [readCharacter_cons h.tail.tail, ok_bind]
  simp only [Option.any_some, hseparator, if_true, Option.getD_some]
  rfl

/-- Without a letter and a colon there is no drive. -/
theorem parseDriveRoot_none (h : Readable r) (hdrive : ¬ StartsWithDrive r.unread) :
    r.parseDriveRoot = .ok none := by
  obtain ⟨unread, position⟩ := r
  cases unread with
  | nil => rfl
  | cons drive unread =>
    rw [parseDriveRoot, readCharacter_cons h, ok_bind]
    simp only [Option.any_some]
    split_ifs with hletter
    · cases unread with
      | nil => rfl
      | cons colon unread =>
        rw [readCharacter_cons h.tail, ok_bind]
        have hcolon : some colon ≠ some 0x3A := by
          rintro ⟨⟩
          exact hdrive ⟨drive, unread, rfl, hletter⟩
        simp only [if_neg hcolon]
        rfl
    · rfl

theorem readRootSegment_eq (lowercase : Bool) (h : Readable ⟨part ++ rest, position⟩)
    (hpart : ∀ c ∈ part, isPathSeparator mode c = false)
    (hrest : ∀ c ∈ rest.head?, isPathSeparator mode c = true) :
    readRootSegment mode lowercase (part ++ rest) position =
      .ok (if lowercase then part.map toAsciiLowercase else part,
        ⟨rest, position + part.length⟩) := by
  induction part generalizing position with
  | nil =>
    cases rest with
    | nil => cases lowercase <;> rfl
    | cons c rest =>
      rw [List.nil_append, readRootSegment, if_pos (hrest c rfl)]
      cases lowercase <;> rfl
  | cons c part ih =>
    obtain ⟨hc, hpart⟩ := List.forall_mem_cons.mp hpart
    have hposition : position + 1 + part.length = position + (part.length + 1) := by
      rw [Nat.add_assoc, Nat.add_comm 1]
    rw [List.cons_append] at h ⊢
    rw [readRootSegment, if_neg (by rw [hc]; exact Bool.false_ne_true), readCharacter_cons h,
      ok_bind, ih h.tail hpart, ok_bind, List.length_cons, ← hposition]
    cases lowercase <;> rfl

theorem consumeSeparator_eq (h : Readable ⟨separator :: rest, position⟩)
    (hseparator : isPathSeparator mode separator = true) :
    consumeSeparator ⟨separator :: rest, position⟩ mode = .ok (true, ⟨rest, position + 1⟩) := by
  rw [consumeSeparator, readCharacter_cons h, ok_bind]
  simp only [Option.any_some, hseparator]
  rfl

/-- A server and a share between separators. -/
theorem parseUncServerAndShare_eq (hseparator : separates q = true)
    (h : Readable ⟨server ++ q :: (share ++ q :: rest), position⟩)
    (hserver : IsPiece separates server) (hshare : IsPiece separates share) : ∃ position',
    parseUncServerAndShare ⟨server ++ q :: (share ++ q :: rest), position⟩ =
      .ok (uncRoot (server.map toAsciiLowercase) share, ⟨rest, position'⟩) ∧
      Readable ⟨rest, position'⟩ := by
  have hq (after : List Nat) : ∀ c ∈ (q :: after).head?, separates c = true := by
    rintro c ⟨⟩
    exact hseparator
  have h₁ := h.drop
  have h₂ := h₁.tail
  have h₃ := h₂.drop
  have hserver_ne : server.map toAsciiLowercase ≠ [] := by
    intro hnil
    exact hserver.ne_nil (List.map_eq_nil_iff.mp hnil)
  refine ⟨_, ?_, h₃.tail⟩
  rw [parseUncServerAndShare]
  simp only
  rw [readRootSegment_eq true h hserver.not_separator (hq _), ok_bind]
  simp only [if_true]
  rw [if_neg hserver_ne, consumeSeparator_eq h₁ hseparator, ok_bind]
  simp only [Bool.not_true, Bool.false_eq_true, if_false]
  rw [readRootSegment_eq false h₂ hshare.not_separator (hq _), ok_bind]
  simp only [Bool.false_eq_true, if_false]
  rw [if_neg hshare.ne_nil, consumeSeparator_eq h₃ hseparator, ok_bind]
  rfl

end

end Reader

end ErbslandCore.Path
