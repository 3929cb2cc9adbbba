import ErbslandCore.Path.PathTexts

namespace ErbslandCore.Path
open Library Text
set_option autoImplicit true

/-- The paths that the parser of generic paths accepts. -/
inductive GenericForm (data : PathData) : Prop where
  | rooted (helements : Elements .slashAndBackslash data) (hformat : data.format = .windows)
    (hroot : WindowsRoot data.root)
  | posix (helements : Elements .slashOnly data) (hformat : data.format = .posix)
    (hroot : data.root = [slash]) (hfirst : ∀ element ∈ data.elements.head?, ¬ NtElement element)
    (hhead : ∀ element ∈ data.elements.head?, ∀ c ∈ element.head?, separates c = false)
  | relative (helements : Elements .slashAndBackslash data) (hformat : data.format = .generic)
    (hroot : data.root = [])

/-- The paths that the parser of Posix paths accepts. -/
structure PosixForm (data : PathData) : Prop where
  elements : Elements .slashOnly data
  format : data.format = .posix
  root : data.root = [slash] ∨ data.root = [] ∧ data.elements ≠ []

/-- A generic path without a root whose first element reads as a drive. -/
def ReadsAsDrive (data : PathData) : Prop :=
  data.format = .generic ∧ ∃ letter next rest, isAsciiLetter letter = true ∧
    data.elements = [letter, 0x3A] :: next :: rest

namespace Reader
variable {r : Reader} {unread : List Nat} {position : Nat}

theorem separates_of_slashOnly (h : isPathSeparator .slashOnly c = true) : separates c = true := by
  simp only [isPathSeparator, Bool.or_eq_true, decide_eq_true_eq] at h
  rcases h with rfl | h
  · rfl
  · cases h

theorem slash_of_slashOnly (h : isPathSeparator .slashOnly c = true) : c = slash := by
  simp only [isPathSeparator, Bool.or_eq_true, decide_eq_true_eq] at h
  rcases h with rfl | h
  · rfl
  · cases h

theorem parsePosixPath_form (h : parsePosixPath ⟨path, 0⟩ = .ok data) : PosixForm data := by
  have hstart : (⟨path, 0⟩ : Reader).position ≤ maximumPathCharacters := Nat.zero_le _
  obtain ⟨result, hseparator, h⟩ := bind_eq_ok h
  rcases parseRootSeparator_cases hstart hseparator with
    ⟨r', q, rfl, hq, hunread, hreads⟩ | ⟨rfl, hhead⟩
  · have hfinished := finish_ok hreads.2 h
    obtain ⟨hformat, hslash, -⟩ := hfinished.fields
    exact ⟨hfinished.elements, hformat, .inl hslash⟩
  · have hfinished := finish_ok hstart h
    obtain ⟨hformat, hnone, -⟩ := hfinished.fields
    exact ⟨hfinished.elements, hformat, .inr ⟨hnone, hfinished.relative⟩⟩

theorem parsePosixPath_text (hform : PosixForm data) :
    parsePosixPath ⟨data.root ++ [slash].intercalate data.elements, 0⟩ = .ok data := by
  obtain ⟨⟨hpieces, hcreate⟩, hformat, hroot⟩ := hform
  have hreadable := (PathData.created_of_create hcreate).readable (q := slash) rfl
  rw [rootText_slash] at hreadable
  rw [hformat] at hcreate
  rcases hroot with hroot | ⟨hroot, hne⟩
  · rw [hroot, List.singleton_append] at hreadable ⊢
    rw [hroot] at hcreate
    rw [parsePosixPath, parseRootSeparator_cons hreadable, ok_bind]
    exact finish_intercalate rfl hpieces hcreate hreadable.tail
  · rw [hroot, List.nil_append] at hreadable ⊢
    rw [hroot] at hcreate
    rw [parsePosixPath, parseRootSeparator_none hreadable (head_intercalate slash hpieces), ok_bind]
    exact finish_intercalate rfl hpieces hcreate hreadable

/-! ### Generic paths -/

theorem startsWithWindowsDriveRoot_cons
    (h : Readable ⟨drive :: 0x3A :: separator :: rest, position⟩)
    (hdrive : isAsciiLetter drive = true) (hseparator : separates separator = true) :
    startsWithWindowsDriveRoot ⟨drive :: 0x3A :: separator :: rest, position⟩ = .ok true := by
  rw [startsWithWindowsDriveRoot, readCharacter_cons h, ok_bind]
  simp only [Option.any_some, hdrive, if_true]
  rw [readCharacter_cons h.tail, ok_bind]
  simp only [if_true]
  rw [readCharacter_cons h.tail.tail, ok_bind]
  simp only [Option.any_some, hseparator]
  rfl

theorem startsWithWindowsDriveRoot_false (h : Readable r)
    (hdrive : ∀ drive separator rest, isAsciiLetter drive = true → separates separator = true →
      r.unread ≠ drive :: 0x3A :: separator :: rest) :
    r.startsWithWindowsDriveRoot = .ok false := by
  obtain ⟨unread, position⟩ := r
  cases unread with
  | nil => rfl
  | cons drive unread =>
    rw [startsWithWindowsDriveRoot, readCharacter_cons h, ok_bind]
    simp only [Option.any_some]
    split_ifs with hletter
    · cases unread with
      | nil => rfl
      | cons colon unread =>
        rw [readCharacter_cons h.tail, ok_bind]
        simp only [Option.some_inj]
        split_ifs with hcolon
        · cases unread with
          | nil => rfl
          | cons separator unread =>
            rw [readCharacter_cons h.tail.tail, ok_bind]
            simp only [Option.any_some]
            cases hseparator : isPathSeparator .slashAndBackslash separator with
            | false => rfl
            | true =>
              rw [hcolon] at hdrive
              exact absurd rfl (hdrive drive separator unread hletter hseparator)
        · rfl
    · rfl

/-- A generic path, with a root of Windows or without one. -/
def genericPath (r : Reader) (isWindows : Bool) : Except ParseError PathData :=
  if isWindows then do
    match ← r.parseWindowsRoot with
    | some (root, r) => r.finish .slashAndBackslash .windows root
    | none => r.throwParseError "Invalid Windows root"
  else do
    match ← r.parseRootSeparator .slashOnly with
    | some r => r.finish .slashOnly .posix [slash]
    | none => r.finish .slashAndBackslash .generic []

theorem parseGenericPath_probe (h : Readable r) (hdrive : r.startsWithWindowsDriveRoot = .ok drive)
    (hnt : isNt r.unread = false) :
    r.parseGenericPath =
      r.genericPath (doubleSlash.isPrefixOf (normalized r.unread) || drive) := by
  rw [parseGenericPath, equalsOrStartsWith_eq h, ok_bind, startsWithNormalized_eq h]
  rw [isNt] at hnt
  rw [hnt, if_neg Bool.false_ne_true, ok_bind]
  cases doubleSlash.isPrefixOf (normalized r.unread) with
  | true => rfl
  | false =>
    rw [if_neg Bool.false_ne_true, hdrive]
    rfl

theorem parseGenericPath_ok (h : r.parseGenericPath = .ok data) : ∃ double drive,
    r.equalsOrStartsWith windowsNtPathRoot windowsNtPathPrefix = .ok false ∧
      r.startsWithNormalized doubleSlash = .ok double ∧ r.genericPath drive = .ok data ∧
      (double = true → drive = true) ∧
      (double = false → r.startsWithWindowsDriveRoot = .ok drive) := by
  obtain ⟨nt, hnt, h⟩ := bind_eq_ok h
  cases nt with
  | true => cases h
  | false =>
    obtain ⟨double, hdouble, h⟩ := bind_eq_ok h
    cases double with
    | true => exact ⟨true, true, hnt, hdouble, h, fun _ => rfl, fun hd => absurd hd (by decide)⟩
    | false =>
      obtain ⟨drive, hdrive, h⟩ := bind_eq_ok h
      exact ⟨false, drive, hnt, hdouble, h, fun hd => absurd hd (by decide), fun _ => hdrive⟩

theorem parseGenericPath_form (h : parseGenericPath ⟨path, 0⟩ = .ok data) : GenericForm data := by
  have hstart : (⟨path, 0⟩ : Reader).position ≤ maximumPathCharacters := Nat.zero_le _
  obtain ⟨double, drive, hnt, hdouble, h, hwindows, -⟩ := parseGenericPath_ok h
  cases drive with
  | true =>
    obtain ⟨result, hroot, h⟩ := bind_eq_ok h
    cases result with
    | none => cases h
    | some result =>
      obtain ⟨root, r'⟩ := result
      obtain ⟨hroot, hreads⟩ := parseWindowsRoot_some hstart hroot
      have hfinished := finish_ok hreads.2 h
      obtain ⟨hformat, rfl, -⟩ := hfinished.fields
      exact .rooted hfinished.elements hformat hroot
  | false =>
    obtain ⟨result, hseparator, h⟩ := bind_eq_ok h
    rcases parseRootSeparator_cases hstart hseparator with
      ⟨r', q, rfl, hq, hunread, hreads⟩ | ⟨rfl, hhead⟩
    · have hfinished := finish_ok hreads.2 h
      obtain ⟨hformat, hslash, -⟩ := hfinished.fields
      have hreadable := hreads.readable hfinished.readable
      rw [equalsOrStartsWith_eq hreadable] at hnt
      rw [startsWithNormalized_eq hreadable] at hdouble
      obtain rfl : path = q :: r'.unread := hunread
      have hq' := separates_of_slashOnly hq
      have hntFalse : isNt (q :: r'.unread) = false := Except.ok.inj hnt
      have hdoubleFalse : doubleSlash.isPrefixOf (normalized (q :: r'.unread)) = false := by
        by_contra htrue
        cases hwindows ((Except.ok.inj hdouble).symm.trans (Bool.not_eq_false _ ▸ htrue))
      have hafter := head_of_not_doubleSlash hq' hdoubleFalse
      have hafterSlash : ∀ c ∈ r'.unread.head?, isPathSeparator .slashOnly c = false := by
        intro c hc
        by_contra hcontra
        have hseparates := separates_of_slashOnly (Bool.not_eq_false _ ▸ hcontra)
        rw [hafter c hc] at hseparates
        cases hseparates
      refine .posix hfinished.elements hformat hslash ?_ ?_
      · intro first hfirst hspecial
        obtain ⟨rest, hrest, -, hend⟩ := hfinished.first hafterSlash hfirst
        have hendAll : AfterElement rest := fun c hc => separates_of_slashOnly (hend c hc)
        rw [hrest, (isNt_separator hq' hendAll).mpr hspecial] at hntFalse
        cases hntFalse
      · intro first hfirst c hc
        obtain ⟨rest, hrest, -, -⟩ := hfinished.first hafterSlash hfirst
        obtain ⟨part, rfl⟩ := List.head?_eq_some_iff.mp hc
        rw [hrest] at hafter
        exact hafter c rfl
    · have hfinished := finish_ok hstart h
      obtain ⟨hformat, hnone, -⟩ := hfinished.fields
      exact .relative hfinished.elements hformat hnone

theorem genericPath_root (hparse : r.parseWindowsRoot = .ok (some (root, r'))) :
    r.genericPath true = r'.finish .slashAndBackslash .windows root := by
  rw [genericPath, if_pos rfl, hparse]
  rfl

theorem genericPath_slash (hparse : r.parseRootSeparator .slashOnly = .ok (some r')) :
    r.genericPath false = r'.finish .slashOnly .posix [slash] := by
  rw [genericPath, if_neg Bool.false_ne_true, hparse]
  rfl

theorem genericPath_relative (hparse : r.parseRootSeparator .slashOnly = .ok none) :
    r.genericPath false = r.finish .slashAndBackslash .generic [] := by
  rw [genericPath, if_neg Bool.false_ne_true, hparse]
  rfl

/-- A slash is no drive. -/
theorem startsWithWindowsDriveRoot_slash (h : Readable ⟨slash :: rest, position⟩) :
    startsWithWindowsDriveRoot ⟨slash :: rest, position⟩ = .ok false := by
  apply startsWithWindowsDriveRoot_false h
  intro drive separator after hletter hseparator htext
  injection htext with hdrive
  rw [← hdrive] at hletter
  cases hletter

/-- A text with a root of Windows is read as a Windows path. -/
theorem parseGenericPath_root (hroot : WindowsRoot root) (h : Readable ⟨root ++ rest, 0⟩) :
    parseGenericPath ⟨root ++ rest, 0⟩ = genericPath ⟨root ++ rest, 0⟩ true := by
  rcases hroot.lowered with ⟨letter, hletter, -, rfl⟩ | ⟨server, share, -, -, -, rfl⟩
  · have hhead : ∀ c ∈ (letter :: driveRootSuffix ++ rest).head?, separates c = false := by
      rintro c ⟨⟩
      exact separates_of_letter hletter
    have hdrive : startsWithWindowsDriveRoot ⟨letter :: driveRootSuffix ++ rest, 0⟩ = .ok true :=
      startsWithWindowsDriveRoot_cons h hletter rfl
    have hprobe := parseGenericPath_probe h hdrive (isNt_of_head hhead)
    rw [Bool.or_true] at hprobe
    exact hprobe
  · exact parseGenericPath_probe h (startsWithWindowsDriveRoot_slash h) rfl

theorem not_doubleSlash_intercalate
    (hhead : ∀ element ∈ elements.head?, ∀ c ∈ element.head?, separates c = false)
    (hpieces : ∀ element ∈ elements, IsPiece (isPathSeparator .slashOnly) element) :
    doubleSlash.isPrefixOf (normalized (slash :: [slash].intercalate elements)) = false := by
  have hafter : ∀ c ∈ ([slash].intercalate elements).head?, separates c = false := by
    cases elements with
    | nil => exact nofun
    | cons first elements =>
      obtain ⟨rest, htext, -, -⟩ := intercalate_cons slash first elements
      obtain ⟨a, part, rfl⟩ := List.exists_cons_of_ne_nil (hpieces first List.mem_cons_self).ne_nil
      rw [htext]
      exact hhead (a :: part) rfl
  have hsecond := not_prefix_of_head hafter []
  rw [normalized_cons rfl, doubleSlash, List.isPrefixOf_cons_cons]
  exact (congrArg _ hsecond).trans (Bool.and_false _)

/-- Only a first element with a letter and a colon, and more elements, reads as a drive. -/
theorem not_drive_intercalate (hpieces : ∀ element ∈ elements, IsPiece separates element)
    (hdrive : ∀ letter next rest, isAsciiLetter letter = true →
      elements ≠ [letter, 0x3A] :: next :: rest)
    (hletter : isAsciiLetter letter = true) (hseparator : separates separator = true) :
    [slash].intercalate elements ≠ letter :: 0x3A :: separator :: rest := by
  intro htext
  cases elements with
  | nil => cases htext
  | cons first elements =>
    obtain ⟨after, hafter, hslash, hend⟩ := intercalate_cons slash first elements
    have hpiece := hpieces first List.mem_cons_self
    rw [hafter] at htext
    rcases first with _ | ⟨a, _ | ⟨b, _ | ⟨c, first⟩⟩⟩
    · exact hpiece.ne_nil rfl
    · cases htext
      cases hslash 0x3A rfl
    · cases htext
      cases elements with
      | nil => cases hend rfl
      | cons next elements => exact hdrive _ next elements hletter rfl
    · cases htext
      have hc := hpiece.not_separator separator
        (List.mem_cons_of_mem _ (List.mem_cons_of_mem _ List.mem_cons_self))
      rw [hc] at hseparator
      cases hseparator

theorem parseGenericPath_text (hform : GenericForm data) (hordinary : ¬ SpecialRoot data.root)
    (hdrive : ¬ ReadsAsDrive data) :
    parseGenericPath ⟨data.root ++ [slash].intercalate data.elements, 0⟩ = .ok data := by
  cases hform with
  | rooted helements hformat hroot =>
    obtain ⟨hpieces, hcreate⟩ := helements
    have hreadable := (PathData.created_of_create hcreate).readable (q := slash) rfl
    rw [hformat] at hcreate
    obtain ⟨position', hparse, hrest⟩ := parseWindowsRoot_rootText rfl hroot hordinary hreadable
    rw [rootText_slash] at hparse hreadable
    rw [parseGenericPath_root hroot hreadable, genericPath_root hparse]
    exact finish_intercalate rfl hpieces hcreate hrest
  | posix helements hformat hroot hfirst hhead =>
    obtain ⟨hpieces, hcreate⟩ := helements
    have hreadable := (PathData.created_of_create hcreate).readable (q := slash) rfl
    rw [rootText_slash] at hreadable
    rw [hformat, hroot] at hcreate
    rw [hroot, List.singleton_append] at hreadable ⊢
    rw [parseGenericPath_probe hreadable (startsWithWindowsDriveRoot_slash hreadable)
        (isNt_intercalate rfl hfirst), not_doubleSlash_intercalate hhead hpieces, Bool.false_or,
      genericPath_slash (parseRootSeparator_cons hreadable .slashOnly)]
    exact finish_intercalate rfl hpieces hcreate hreadable.tail
  | relative helements hformat hroot =>
    obtain ⟨hpieces, hcreate⟩ := helements
    have hreadable := (PathData.created_of_create hcreate).readable (q := slash) rfl
    rw [rootText_slash] at hreadable
    rw [hformat, hroot] at hcreate
    rw [hroot, List.nil_append] at hreadable ⊢
    have hhead : ∀ c ∈ ([slash].intercalate data.elements).head?, separates c = false :=
      head_intercalate slash hpieces
    have hheadSlash : ∀ c ∈ ([slash].intercalate data.elements).head?,
        isPathSeparator .slashOnly c = false := by
      intro c hc
      by_contra hcontra
      have hseparates := separates_of_slashOnly (Bool.not_eq_false _ ▸ hcontra)
      rw [hhead c hc] at hseparates
      cases hseparates
    have hnoDrive : startsWithWindowsDriveRoot ⟨[slash].intercalate data.elements, 0⟩ =
        .ok false := by
      apply startsWithWindowsDriveRoot_false hreadable
      intro drive separator rest hletter hseparator
      refine not_drive_intercalate hpieces ?_ hletter hseparator
      intro letter next rest hletter helements
      exact hdrive ⟨hformat, letter, next, rest, hletter, helements⟩
    have hdouble : doubleSlash.isPrefixOf (normalized ([slash].intercalate data.elements)) = false :=
      not_prefix_of_head hhead [0x2F]
    rw [parseGenericPath_probe hreadable hnoDrive (isNt_of_head hhead), hdouble, Bool.false_or,
      genericPath_relative (parseRootSeparator_none hreadable hheadSlash)]
    exact finish_intercalate rfl hpieces hcreate hreadable

end Reader

theorem PathData.not_posix_absolute (hform : WindowsForm data)
    (hnot : ¬ (data.format = .posix ∧ data.isAbsolute = true)) :
    WindowsRoot data.root ∨ data.root = [] := by
  cases hform with
  | rooted hformat hroot => exact .inl hroot
  | posix hformat hroot hfirst =>
    refine absurd ⟨hformat, ?_⟩ hnot
    rw [isAbsolute, hroot]
    rfl
  | relative hformat hroot hfirst => exact .inr hroot

theorem PathData.toWindows_text {data : PathData}
    (hnot : ¬ (data.format = .posix ∧ data.isAbsolute = true)) (format : PathWindowsFormat) :
    data.toWindows format =
      windowsRoot data.root format ++ [backslash].intercalate data.elements := by
  rw [toWindows, if_neg hnot, appendElements_false]

theorem WindowsForm.getLast (h : WindowsForm data) :
    data.root ≠ [] → data.root.getLast? = some slash := by
  intro hne
  cases h with
  | rooted hformat hroot => exact hroot.getLast.2
  | posix hformat hroot hfirst =>
    rw [hroot]
    rfl
  | relative hformat hroot hfirst => exact absurd hroot hne

theorem GenericForm.getLast (h : GenericForm data) :
    data.root ≠ [] → data.root.getLast? = some slash := by
  intro hne
  cases h with
  | rooted helements hformat hroot => exact hroot.getLast.2
  | posix helements hformat hroot hfirst hhead =>
    rw [hroot]
    rfl
  | relative helements hformat hroot => exact absurd hroot hne

theorem PosixForm.getLast (h : PosixForm data) :
    data.root ≠ [] → data.root.getLast? = some slash := by
  intro hne
  rcases h.root with hroot | ⟨hroot, -⟩
  · rw [hroot]
    rfl
  · exact absurd hroot hne

namespace Reader

theorem parseWindowsPath_toString (helements : Elements .slashAndBackslash data)
    (hform : WindowsForm data) (hordinary : ¬ SpecialRoot data.root) :
    parseWindowsPath ⟨data.toString, 0⟩ = .ok data := by
  rw [PathData.toString_text hform.getLast]
  exact parseWindowsPath_text rfl helements hform hordinary

theorem parseWindowsPath_native (helements : Elements .slashAndBackslash data)
    (hform : WindowsForm data) (hnot : ¬ (data.format = .posix ∧ data.isAbsolute = true))
    (hordinary : ¬ SpecialRoot data.root) :
    parseWindowsPath ⟨data.toWindows .native, 0⟩ = .ok data := by
  have hroot : PathData.windowsRoot data.root .native = rootText backslash data.root := by
    rcases PathData.not_posix_absolute hform hnot with hroot | hroot
    · exact PathData.windowsRoot_native hroot
    · rw [hroot]
      rfl
  rw [PathData.toWindows_text hnot, hroot]
  exact parseWindowsPath_text rfl helements hform hordinary

/-- The extended text is read where it is no longer than a path; its servers are not checked. -/
theorem parseWindowsPath_extended (helements : Elements .slashAndBackslash data)
    (hform : WindowsForm data) (hnot : ¬ (data.format = .posix ∧ data.isAbsolute = true))
    (hbound : (data.toWindows .extended).length ≤ maximumPathCharacters) :
    parseWindowsPath ⟨data.toWindows .extended, 0⟩ = .ok data := by
  rcases PathData.not_posix_absolute hform hnot with hroot | hroot
  · obtain ⟨hpieces, hcreate⟩ := helements
    obtain ⟨-, -, hrootValid, helementsValid, -⟩ := PathData.created_of_create hcreate
    have hformat : data.format = .windows := by
      cases hform with
      | rooted hformat hroot => exact hformat
      | posix hformat hslash hfirst =>
        rw [hslash] at hroot
        rcases hroot.lowered with ⟨letter, -, -, hdrive⟩ | ⟨server, share, -, -, -, hunc⟩
        · cases hdrive
        · cases hunc
      | relative hformat hnone hfirst => exact hformat
    rw [PathData.toWindows_text hnot] at hbound ⊢
    rw [List.length_append, length_intercalate, ← Nat.add_assoc] at hbound
    have hreadable := PathData.readable_text (q := backslash) rfl
      (PathData.windowsRoot_valid .extended hrootValid) helementsValid hbound
    obtain ⟨position', hparse, hrest⟩ := parseWindowsRoot_windowsExtended hroot hreadable
    rw [hformat] at hcreate
    rw [parseWindowsPath, hparse, ok_bind]
    exact finish_intercalate rfl hpieces hcreate hrest
  · have hordinary : ¬ SpecialRoot data.root := by
      rw [hroot]
      decide
    have htext : data.toWindows .extended = data.toWindows .native := by
      rw [PathData.toWindows_text hnot, PathData.toWindows_text hnot, hroot]
      rfl
    rw [htext]
    exact parseWindowsPath_native helements hform hnot hordinary

end Reader

namespace PathParser

def parseIn (mode : PathParseMode) (r : Reader) : Except ParseError PathData :=
  match mode with
  | .posix => r.parsePosixPath
  | .windows => r.parseWindowsPath
  | .generic => r.parseGenericPath
  | .native => r.throwParseError "Invalid path parse mode"

theorem parse_mode (hne : text ≠ []) :
    parse isWindows mode text = parseIn (nativeMode isWindows mode) ⟨text, 0⟩ := by
  obtain ⟨c, text, rfl⟩ := List.exists_cons_of_ne_nil hne
  rfl

/-- No mode reads an empty text. -/
theorem parse_of_parseIn (hmode : nativeMode isWindows mode = parsed)
    (h : parseIn parsed ⟨text, 0⟩ = .ok data) : parse isWindows mode text = .ok data := by
  have hne : text ≠ [] := by
    rintro rfl
    cases parsed <;> cases h
  rw [parse_mode hne, hmode]
  exact h

theorem parse_ne_nil (h : parse isWindows mode text = .ok data) : text ≠ [] := by
  rintro rfl
  cases h

/-- The text of a path is read as the same path, and so are the texts of a Windows path, unless the
root reads as a device or an extended path or the first element reads as a drive. -/
theorem parse_roundTrip (h : parse isWindows mode path = .ok data) :
    (¬ SpecialRoot data.root → ¬ ReadsAsDrive data →
      parse isWindows mode data.toString = .ok data) ∧
    (nativeMode isWindows mode = .windows → ¬ (data.format = .posix ∧ data.isAbsolute = true) →
      (¬ SpecialRoot data.root → parse isWindows mode (data.toWindows .native) = .ok data) ∧
      ((data.toWindows .extended).length ≤ maximumPathCharacters →
        parse isWindows mode (data.toWindows .extended) = .ok data)) := by
  rw [parse_mode (parse_ne_nil h)] at h
  cases hmode : nativeMode isWindows mode with
  | generic =>
    rw [hmode] at h
    have hform := Reader.parseGenericPath_form h
    refine ⟨fun hordinary hdrive => parse_of_parseIn hmode ?_, nofun⟩
    rw [PathData.toString_text hform.getLast, rootText_slash]
    exact Reader.parseGenericPath_text hform hordinary hdrive
  | posix =>
    rw [hmode] at h
    have hform := Reader.parsePosixPath_form h
    refine ⟨fun _ _ => parse_of_parseIn hmode ?_, nofun⟩
    rw [PathData.toString_text hform.getLast, rootText_slash]
    exact Reader.parsePosixPath_text hform
  | windows =>
    rw [hmode] at h
    obtain ⟨helements, hform⟩ := Reader.parseWindowsPath_form h
    refine ⟨fun hordinary _ => parse_of_parseIn hmode ?_, fun _ hnot => ⟨fun hordinary => ?_, ?_⟩⟩
    · exact Reader.parseWindowsPath_toString helements hform hordinary
    · exact parse_of_parseIn hmode (Reader.parseWindowsPath_native helements hform hnot hordinary)
    · intro hbound
      exact parse_of_parseIn hmode (Reader.parseWindowsPath_extended helements hform hnot hbound)
  | native =>
    rw [hmode] at h
    cases h

/-- The share `\\Host\data` with the element `x`. -/
theorem parse_roundTrip_share :
    let data : PathData := ⟨.windows, uncRoot [0x68, 0x6F, 0x73, 0x74] [0x64], [[0x78]], 10⟩
    parse false .windows [0x5C, 0x5C, 0x48, 0x6F, 0x73, 0x74, 0x2F, 0x64, 0x5C, 0x78] = .ok data ∧
      parse false .windows data.toString = .ok data ∧
      parse false .windows (data.toWindows .native) = .ok data ∧
      parse false .windows (data.toWindows .extended) = .ok data := by
  intro data
  have hparse :
      parse false .windows [0x5C, 0x5C, 0x48, 0x6F, 0x73, 0x74, 0x2F, 0x64, 0x5C, 0x78] = .ok data :=
    rfl
  obtain ⟨htext, hwindows⟩ := parse_roundTrip hparse
  have hordinary : ¬ SpecialRoot data.root := by decide
  have hdrive : ¬ ReadsAsDrive data := fun h => nomatch h.1
  obtain ⟨hnative, hextended⟩ := hwindows rfl (fun h => nomatch h.1)
  exact ⟨hparse, htext hordinary hdrive, hnative hordinary, hextended (by decide)⟩

/-- The first separator of a generic path may be a backslash, which is not written again. -/
theorem parse_backslash : ¬ ∀ isWindows mode path data, parse isWindows mode path = .ok data →
    ∃ data', parse isWindows mode data.toString = .ok data' ∧ data'.root = data.root ∧
      data'.elements = data.elements := by
  intro h
  obtain ⟨data', hparse, hroot, -⟩ := h false .generic [0x5C, 0x63, 0x3A, 0x5C, 0x78]
    ⟨.generic, [], [[0x63, 0x3A], [0x78]], 4⟩ rfl
  have hdrive : parse false .generic
      (PathData.toString ⟨.generic, [], [[0x63, 0x3A], [0x78]], 4⟩) =
      .ok ⟨.windows, [0x63, 0x3A, 0x2F], [[0x78]], 4⟩ := rfl
  rw [hdrive] at hparse
  cases hparse
  cases hroot

end PathParser

end ErbslandCore.Path
