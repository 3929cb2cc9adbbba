import ErbslandCore.Path.PathRootTexts

namespace ErbslandCore.Path
open Library Text
set_option autoImplicit true

/-! ### Letters -/

theorem toAsciiLowercase_cases (c : Nat) : toAsciiLowercase c = c ∨
    isAsciiLetter (toAsciiLowercase c) = true ∧ 0x61 ≤ toAsciiLowercase c := by
  rw [toAsciiLowercase]
  split_ifs with hupper
  · refine .inr ⟨?_, Nat.add_le_add_right hupper.1 0x20⟩
    simp only [isAsciiLetter, Bool.or_eq_true, Bool.and_eq_true, decide_eq_true_eq]
    omega
  · exact .inl rfl

theorem toAsciiLowercase_idem (c : Nat) :
    toAsciiLowercase (toAsciiLowercase c) = toAsciiLowercase c := by
  rcases toAsciiLowercase_cases c with h | ⟨-, h⟩
  · exact congrArg toAsciiLowercase h
  · exact if_neg fun hupper => absurd (h.trans hupper.2) (by decide)

theorem isAsciiLetter_toAsciiLowercase (h : isAsciiLetter c = true) :
    isAsciiLetter (toAsciiLowercase c) = true := by
  rcases toAsciiLowercase_cases c with hc | ⟨hc, -⟩
  · rw [hc]
    exact h
  · exact hc

theorem separates_toAsciiLowercase (h : separates c = false) :
    separates (toAsciiLowercase c) = false := by
  rcases toAsciiLowercase_cases c with hc | ⟨hc, -⟩
  · rw [hc]
    exact h
  · exact separates_of_letter hc

theorem isPiece_lowercase (h : IsPiece separates server) :
    IsPiece separates (server.map toAsciiLowercase) where
  ne_nil := fun hnil => h.ne_nil (List.map_eq_nil_iff.mp hnil)
  not_separator := by
    intro lowered hlowered
    obtain ⟨c, hc, rfl⟩ := List.mem_map.mp hlowered
    exact separates_toAsciiLowercase (h.not_separator c hc)

/-! ### Roots -/

/-- A root of Windows is in lower case already. -/
theorem WindowsRoot.lowered (h : WindowsRoot root) :
    (∃ letter, isAsciiLetter letter = true ∧ toAsciiLowercase letter = letter ∧
      root = letter :: driveRootSuffix) ∨
    ∃ server share, IsPiece separates server ∧ IsPiece separates share ∧
      server.map toAsciiLowercase = server ∧ root = uncRoot server share := by
  cases h with
  | drive h =>
    exact .inl ⟨_, isAsciiLetter_toAsciiLowercase h, toAsciiLowercase_idem _, rfl⟩
  | @unc server share hserver hshare =>
    refine .inr ⟨_, share, isPiece_lowercase hserver, hshare, ?_, rfl⟩
    rw [List.map_map]
    exact List.map_congr_left fun c _ => toAsciiLowercase_idem c

/-- The root of a device or of an extended path. -/
def SpecialRoot (root : List Nat) : Prop :=
  windowsDevicePathPrefix <+: root ∨ windowsExtendedPathPrefix <+: root

instance (root : List Nat) : Decidable (SpecialRoot root) :=
  inferInstanceAs (Decidable (_ ∨ _))

theorem specialRoot_of_server (hserver : Reader.SpecialServer server) (share : List Nat) :
    SpecialRoot (uncRoot server share) := by
  rcases hserver with rfl | rfl
  · exact .inl ⟨share ++ [slash], rfl⟩
  · exact .inr ⟨share ++ [slash], rfl⟩

/-- A root that is written with another separator. -/
def rootText (q : Nat) (root : List Nat) : List Nat := root.map fun c => if c = slash then q else c

theorem rootText_slash (root : List Nat) : rootText slash root = root := by
  have hid (c : Nat) : (if c = slash then slash else c) = c := by
    split_ifs with h
    · exact h.symm
    · rfl
  rw [rootText, List.map_congr_left fun c _ => hid c, List.map_id']

theorem rootText_piece (q : Nat) (h : ∀ c ∈ part, separates c = false) : rootText q part = part := by
  have hid (c : Nat) (hc : c ∈ part) : (if c = slash then q else c) = c :=
    if_neg ((not_separates_iff c).mp (h c hc)).1
  rw [rootText, List.map_congr_left hid, List.map_id']

theorem rootText_drive (q : Nat) (hletter : isAsciiLetter letter = true) :
    rootText q (letter :: driveRootSuffix) = [letter, 0x3A, q] := by
  have hslash : letter ≠ slash := ((not_separates_iff letter).mp (separates_of_letter hletter)).1
  rw [rootText, List.map_cons, if_neg hslash]
  rfl

theorem rootText_unc (q : Nat) (hserver : IsPiece separates server)
    (hshare : IsPiece separates share) :
    rootText q (uncRoot server share) = q :: q :: (server ++ q :: (share ++ [q])) := by
  have hserverText := rootText_piece q hserver.not_separator
  have hshareText := rootText_piece q hshare.not_separator
  rw [rootText] at hserverText hshareText
  rw [rootText, uncRoot, List.map_append, List.map_append, List.map_append, List.map_append,
    hserverText, hshareText]
  simp [doubleSlash, slash]

namespace Reader
variable {q position : Nat} {root rest : List Nat}

/-- A root that was read is read again from its text. -/
theorem parseWindowsRoot_rootText (hq : separates q = true) (hroot : WindowsRoot root)
    (hordinary : ¬ SpecialRoot root) (h : Readable ⟨rootText q root ++ rest, position⟩) :
    ∃ position', parseWindowsRoot ⟨rootText q root ++ rest, position⟩ =
      .ok (some (root, ⟨rest, position'⟩)) ∧ Readable ⟨rest, position'⟩ := by
  rcases hroot.lowered with ⟨letter, hletter, hlower, rfl⟩ |
    ⟨server, share, hserver, hshare, hlower, rfl⟩
  · rw [rootText_drive q hletter] at h ⊢
    have hhead : ∀ c ∈ ([letter, 0x3A, q] ++ rest).head?, separates c = false := by
      rintro c ⟨⟩
      exact separates_of_letter hletter
    refine ⟨_, ?_, h.tail.tail.tail⟩
    rw [parseWindowsRoot_of_head h hhead]
    have hparse := parseDriveRoot_eq h hletter hq
    rw [hlower] at hparse
    exact hparse
  · have htext : rootText q (uncRoot server share) ++ rest =
        q :: q :: (server ++ q :: (share ++ q :: rest)) := by
      rw [rootText_unc q hserver hshare]
      simp
    rw [htext] at h ⊢
    have hallowed : ¬ SpecialServer server := fun hspecial =>
      hordinary (specialRoot_of_server hspecial share)
    have hparse := parseWindowsRoot_unc hq h hserver hshare hallowed
    rw [hlower] at hparse
    exact hparse

end Reader

/-! ### Created paths -/

namespace PathData
variable {format : PathFormat} {root : List Nat} {elements : List (List Nat)} {data : PathData}

/-- What the data of a created path is. -/
structure Created (format : PathFormat) (root : List Nat) (elements : List (List Nat))
    (data : PathData) : Prop where
  eq : data = ⟨format, root, elements, totalLength root elements⟩
  nonempty : root ≠ [] ∨ elements ≠ []
  root_valid : ∀ c ∈ root, invalidPathCharacters c = false
  elements_valid : ∀ element ∈ elements, ∀ c ∈ element, invalidPathCharacters c = false
  bound : totalLength root elements ≤ maximumPathCharacters

theorem created_of_create (h : create format root elements = some data) :
    Created format root elements data := by
  rw [create] at h
  split_ifs at h with hcount hroot helements hbound
  cases h
  refine ⟨rfl, ?_, ?_, ?_, Nat.le_of_not_gt hbound⟩
  · by_contra hnone
    obtain ⟨hnoRoot, hnoElements⟩ := not_or.mp hnone
    rw [not_not.mp hnoRoot, not_not.mp hnoElements] at hcount
    exact hcount (.inl rfl)
  · intro c hc
    by_contra hinvalid
    exact hroot (List.any_eq_true.mpr ⟨c, hc, Bool.not_eq_false _ ▸ hinvalid⟩)
  · intro element helement c hc
    by_contra hinvalid
    refine helements (List.any_eq_true.mpr ⟨element, helement, ?_⟩)
    exact List.any_eq_true.mpr ⟨c, hc, Bool.not_eq_false _ ▸ hinvalid⟩

theorem appendElements_true (q : Nat) (result : List Nat) (elements : List (List Nat)) :
    appendElements q true result elements =
      result ++ elements.flatMap fun element => q :: element := by
  induction elements generalizing result with
  | nil => exact (List.append_nil result).symm
  | cons element elements ih =>
    rw [appendElements, if_pos rfl, ih, List.flatMap_cons]
    simp

theorem appendElements_false (q : Nat) (result : List Nat) (elements : List (List Nat)) :
    appendElements q false result elements = result ++ [q].intercalate elements := by
  cases elements with
  | nil => exact (List.append_nil result).symm
  | cons element elements =>
    rw [appendElements, if_neg Bool.false_ne_true, appendElements_true, List.append_assoc]
    congr 1
    induction elements generalizing element with
    | nil => simp
    | cons next elements ih =>
      rw [List.intercalate_cons_cons, ← ih next, List.flatMap_cons]
      simp

/-- A text of valid characters that is no longer than a path. -/
theorem readable_text (hq : invalidPathCharacters q = false)
    (hroot : ∀ c ∈ before, invalidPathCharacters c = false)
    (helements : ∀ element ∈ elements, ∀ c ∈ element, invalidPathCharacters c = false)
    (hbound : totalLength before elements ≤ maximumPathCharacters) :
    Readable ⟨before ++ [q].intercalate elements, 0⟩ where
  valid := by
    intro c hc
    rcases List.mem_append.mp hc with hc | hc
    · exact hroot c hc
    · rcases mem_intercalate hc with rfl | ⟨element, helement, hc⟩
      · exact hq
      · exact helements element helement c hc
  bound := by
    rw [totalLength, Nat.add_assoc, ← length_intercalate q] at hbound
    rw [Nat.zero_add, List.length_append]
    exact hbound

theorem Created.readable (h : Created format root elements data)
    (hq : invalidPathCharacters q = false) :
    Readable ⟨rootText q root ++ [q].intercalate elements, 0⟩ := by
  refine readable_text hq ?_ h.elements_valid ?_
  · intro written hwritten
    obtain ⟨c, hc, rfl⟩ := List.mem_map.mp hwritten
    split_ifs
    · exact hq
    · exact h.root_valid c hc
  · have hlength : (rootText q root).length = root.length := List.length_map _
    rw [totalLength, hlength]
    exact h.bound

end PathData

namespace Reader
variable {r : Reader} {unread : List Nat} {position : Nat} {format : PathFormat}

/-- The rest of a text with the elements of a path. -/
theorem finish_intercalate (hq : isPathSeparator mode q = true)
    (hpieces : ∀ element ∈ elements, IsPiece (isPathSeparator mode) element)
    (hcreate : PathData.create format root elements = some data)
    (h : Readable ⟨[q].intercalate elements, position⟩) :
    finish ⟨[q].intercalate elements, position⟩ mode format root = .ok data := by
  refine finish_eq ⟨h, ?_⟩
  rw [pieces_intercalate hq hpieces]
  exact hcreate

theorem parseRootSeparator_cons (h : Readable ⟨c :: unread, position⟩) (mode : SeparatorMode) :
    parseRootSeparator ⟨c :: unread, position⟩ mode =
      .ok (if isPathSeparator mode c then some ⟨unread, position + 1⟩ else none) := by
  rw [parseRootSeparator, readCharacter_cons h, ok_bind]
  simp only [Option.any_some]
  rfl

/-- A root that is a separator, or none. -/
theorem parseRootSeparator_cases (hposition : r.position ≤ maximumPathCharacters)
    (h : r.parseRootSeparator mode = .ok result) :
    (∃ r' c, result = some r' ∧ isPathSeparator mode c = true ∧ r.unread = c :: r'.unread ∧
      ReadsOn r r') ∨
    (result = none ∧ ∀ c ∈ r.unread.head?, isPathSeparator mode c = false) := by
  obtain ⟨⟨character, r'⟩, hread, h⟩ := bind_eq_ok h
  cases h
  have hreads := readCharacter_readsOn hposition hread
  rcases readCharacter_cases hread with ⟨rfl, hempty, -⟩ | ⟨c, rfl, ⟨hunread, -, -⟩, -⟩
  · refine .inr ⟨rfl, ?_⟩
    rw [hempty]
    exact nofun
  · rw [List.singleton_append] at hunread
    cases hc : isPathSeparator mode c with
    | true => exact .inl ⟨r', c, by rw [Option.any_some, hc, if_pos rfl], hc, hunread, hreads⟩
    | false =>
      refine .inr ⟨by rw [Option.any_some, hc, if_neg Bool.false_ne_true], ?_⟩
      rw [hunread]
      rintro c' ⟨⟩
      exact hc

theorem Finished.fields (h : Finished r mode format root data) : data.format = format ∧
    data.root = root ∧ data.elements = pieces (isPathSeparator mode) r.unread := by
  obtain ⟨hdata, -, -, -, -⟩ := PathData.created_of_create h.created
  rw [hdata]
  exact ⟨rfl, rfl, rfl⟩

theorem Finished.create (h : Finished r mode format root data) :
    PathData.create data.format data.root data.elements = some data := by
  obtain ⟨hformat, hroot, helements⟩ := h.fields
  rw [hformat, hroot, helements]
  exact h.created

theorem Finished.isPiece (h : Finished r mode format root data) :
    ∀ element ∈ data.elements, IsPiece (isPathSeparator mode) element := by
  obtain ⟨-, -, helements⟩ := h.fields
  rw [helements]
  exact fun element => isPiece_of_mem

/-- Without a root there are elements. -/
theorem Finished.relative (h : Finished r mode format [] data) : data.elements ≠ [] := by
  obtain ⟨-, -, helements⟩ := h.fields
  obtain ⟨-, hnonempty, -, -, -⟩ := PathData.created_of_create h.created
  rw [helements]
  exact hnonempty.resolve_left (fun h => h rfl)

/-- The first element of a finished path stands at the begin of the text. -/
theorem Finished.first {first : List Nat} (h : Finished r mode format root data)
    (hhead : ∀ c ∈ r.unread.head?, isPathSeparator mode c = false)
    (hfirst : first ∈ data.elements.head?) : ∃ rest, r.unread = first ++ rest ∧
      IsPiece (isPathSeparator mode) first ∧ ∀ c ∈ rest.head?, isPathSeparator mode c = true := by
  obtain ⟨-, -, helements⟩ := h.fields
  rw [helements] at hfirst
  have hne : r.unread ≠ [] := by
    intro hnil
    rw [hnil] at hfirst
    cases hfirst
  obtain ⟨part, rest, htext, hpiece, hrest, hpieces⟩ := pieces_of_head hne hhead
  rw [hpieces] at hfirst
  cases hfirst
  exact ⟨rest, htext, hpiece, hrest⟩

theorem startsWithDrive_append (hpart : IsPiece separates part) (hrest : AfterElement rest) :
    StartsWithDrive (part ++ rest) ↔ StartsWithDrive part := by
  constructor
  · rintro ⟨drive, after, htext, hdrive⟩
    obtain ⟨a, part, rfl⟩ := List.exists_cons_of_ne_nil hpart.ne_nil
    rw [List.cons_append, List.cons.injEq] at htext
    obtain ⟨rfl, htext⟩ := htext
    cases part with
    | nil =>
      rw [List.nil_append] at htext
      have hcolon := hrest 0x3A (by rw [htext]; rfl)
      cases hcolon
    | cons b part =>
      cases htext
      exact ⟨a, part, rfl, hdrive⟩
  · rintro ⟨drive, after, rfl, hdrive⟩
    exact ⟨drive, after ++ rest, rfl, hdrive⟩

theorem parseDriveRoot_ok_none (h : Readable r) (hnone : r.parseDriveRoot = .ok none) :
    ¬ StartsWithDrive r.unread := by
  rintro ⟨drive, rest, htext, hdrive⟩
  obtain ⟨unread, position⟩ := r
  cases htext
  rw [parseDriveRoot, readCharacter_cons h, ok_bind] at hnone
  simp only [Option.any_some, hdrive, if_true] at hnone
  rw [readCharacter_cons h.tail, ok_bind] at hnone
  simp only [if_true] at hnone
  obtain ⟨⟨separator, r'⟩, -, hnone⟩ := bind_eq_ok hnone
  simp only at hnone
  split_ifs at hnone
  · cases hnone
  · cases hnone

/-- A text without a root of Windows begins with no special text. -/
theorem parseWindowsRoot_none (h : Readable r) (hnone : r.parseWindowsRoot = .ok none) :
    isNt r.unread = false ∧ doubleSlash.isPrefixOf (normalized r.unread) = false ∧
      ¬ StartsWithDrive r.unread := by
  rw [parseWindowsRoot_probe h] at hnone
  split_ifs at hnone with hdevice hnt hextended hunc
  · cases hnone
  · cases hnone
  · cases hparse : r.parseExtendedWindowsRoot <;> rw [hparse] at hnone <;> cases hnone
  · cases hparse : r.parseUncRoot <;> rw [hparse] at hnone <;> cases hnone
  · exact ⟨Bool.not_eq_true _ ▸ hnt, Bool.not_eq_true _ ▸ hunc, parseDriveRoot_ok_none h hnone⟩

/-- Behind a single separator at the begin stands no separator. -/
theorem head_of_not_doubleSlash (hq : separates q = true)
    (h : doubleSlash.isPrefixOf (normalized (q :: after)) = false) :
    ∀ c ∈ after.head?, separates c = false := by
  intro c hc
  obtain ⟨rest, rfl⟩ : ∃ rest, after = c :: rest := List.head?_eq_some_iff.mp hc
  by_contra hseparator
  rw [normalized_cons hq, normalized_cons (Bool.not_eq_false _ ▸ hseparator)] at h
  cases h

end Reader

/-- The paths that the parser of Windows paths accepts. -/
inductive WindowsForm (data : PathData) : Prop where
  | rooted (hformat : data.format = .windows) (hroot : WindowsRoot data.root)
  | posix (hformat : data.format = .posix) (hroot : data.root = [slash])
    (hfirst : ∀ element ∈ data.elements.head?, ¬ NtElement element)
  | relative (hformat : data.format = .windows) (hroot : data.root = [])
    (hfirst : ∀ element ∈ data.elements.head?, ¬ StartsWithDrive element)

/-- The elements of a path and how it was created. -/
structure Elements (mode : SeparatorMode) (data : PathData) : Prop where
  isPiece : ∀ element ∈ data.elements, IsPiece (isPathSeparator mode) element
  create : PathData.create data.format data.root data.elements = some data

namespace Reader

theorem Finished.elements (h : Finished r mode format root data) : Elements mode data :=
  ⟨h.isPiece, h.create⟩

theorem parseWindowsPath_form (h : parseWindowsPath ⟨path, 0⟩ = .ok data) :
    Elements .slashAndBackslash data ∧ WindowsForm data := by
  have hstart : (⟨path, 0⟩ : Reader).position ≤ maximumPathCharacters := Nat.zero_le _
  obtain ⟨result, hroot, h⟩ := bind_eq_ok h
  cases result with
  | some result =>
    obtain ⟨root, r'⟩ := result
    obtain ⟨hwindows, hreads⟩ := parseWindowsRoot_some hstart hroot
    have hfinished := finish_ok hreads.2 h
    obtain ⟨hformat, rfl, -⟩ := hfinished.fields
    exact ⟨hfinished.elements, .rooted hformat hwindows⟩
  | none =>
    obtain ⟨result, hseparator, h⟩ := bind_eq_ok h
    rcases parseRootSeparator_cases hstart hseparator with
      ⟨r', q, rfl, hq, hunread, hreads⟩ | ⟨rfl, hhead⟩
    · have hfinished := finish_ok hreads.2 h
      obtain ⟨hformat, hslash, -⟩ := hfinished.fields
      obtain ⟨hnt, hdouble, -⟩ := parseWindowsRoot_none (hreads.readable hfinished.readable) hroot
      rw [hunread] at hnt hdouble
      refine ⟨hfinished.elements, .posix hformat hslash ?_⟩
      intro first hfirst hspecial
      obtain ⟨rest, hrest, -, hafter⟩ :=
        hfinished.first (head_of_not_doubleSlash hq hdouble) hfirst
      rw [hrest, (isNt_separator hq hafter).mpr hspecial] at hnt
      cases hnt
    · have hfinished := finish_ok hstart h
      obtain ⟨hformat, hnoRoot, -⟩ := hfinished.fields
      obtain ⟨-, -, hdrive⟩ := parseWindowsRoot_none hfinished.readable hroot
      refine ⟨hfinished.elements, .relative hformat hnoRoot ?_⟩
      intro first hfirst hstarts
      obtain ⟨rest, hrest, hpiece, hafter⟩ := hfinished.first hhead hfirst
      rw [hrest] at hdrive
      exact hdrive ((startsWithDrive_append hpiece hafter).mpr hstarts)

theorem not_invalid_of_separates (hq : separates q = true) : invalidPathCharacters q = false := by
  rcases (separates_iff q).mp hq with rfl | rfl
  · rfl
  · rfl

theorem head_intercalate (q : Nat)
    (hpieces : ∀ element ∈ elements, IsPiece (isPathSeparator mode) element) :
    ∀ c ∈ ([q].intercalate elements).head?, isPathSeparator mode c = false := by
  cases elements with
  | nil => exact nofun
  | cons first elements =>
    obtain ⟨rest, htext, -, -⟩ := intercalate_cons q first elements
    have hpiece := hpieces first List.mem_cons_self
    obtain ⟨a, part, rfl⟩ := List.exists_cons_of_ne_nil hpiece.ne_nil
    rw [htext]
    rintro c ⟨⟩
    exact hpiece.not_separator _ List.mem_cons_self

theorem isNt_intercalate (hq : separates q = true)
    (hfirst : ∀ element ∈ elements.head?, ¬ NtElement element) :
    isNt (q :: [q].intercalate elements) = false := by
  cases elements with
  | nil => rcases (separates_iff q).mp hq with rfl | rfl <;> rfl
  | cons first elements =>
    obtain ⟨rest, htext, hrest, -⟩ := intercalate_cons q first elements
    have hafter : AfterElement rest := by
      intro c hc
      rw [hrest c hc]
      exact hq
    rw [htext, ← Bool.not_eq_true]
    exact fun hnt => hfirst first rfl ((isNt_separator hq hafter).mp hnt)

theorem not_startsWithDrive_intercalate (hq : separates q = true)
    (hpieces : ∀ element ∈ elements, IsPiece separates element)
    (hfirst : ∀ element ∈ elements.head?, ¬ StartsWithDrive element) :
    ¬ StartsWithDrive ([q].intercalate elements) := by
  cases elements with
  | nil =>
    rintro ⟨drive, rest, htext, -⟩
    cases htext
  | cons first elements =>
    obtain ⟨rest, htext, hrest, -⟩ := intercalate_cons q first elements
    have hafter : AfterElement rest := by
      intro c hc
      rw [hrest c hc]
      exact hq
    rw [htext, startsWithDrive_append (hpieces first List.mem_cons_self) hafter]
    exact hfirst first rfl

theorem parseRootSeparator_none (h : Readable r)
    (hhead : ∀ c ∈ r.unread.head?, isPathSeparator mode c = false) :
    r.parseRootSeparator mode = .ok none := by
  obtain ⟨unread, position⟩ := r
  cases unread with
  | nil => rfl
  | cons c unread =>
    rw [parseRootSeparator_cons h, hhead c rfl]
    rfl

/-- The text of a Windows path, with either separator, is read as the same path. -/
theorem parseWindowsPath_text (hq : separates q = true)
    (helements : Elements .slashAndBackslash data) (hform : WindowsForm data)
    (hordinary : ¬ SpecialRoot data.root) :
    parseWindowsPath ⟨rootText q data.root ++ [q].intercalate data.elements, 0⟩ = .ok data := by
  obtain ⟨hpieces, hcreate⟩ := helements
  have hreadable := (PathData.created_of_create hcreate).readable (not_invalid_of_separates hq)
  cases hform with
  | rooted hformat hroot =>
    obtain ⟨position', hparse, hrest⟩ := parseWindowsRoot_rootText hq hroot hordinary hreadable
    rw [hformat] at hcreate
    rw [parseWindowsPath, hparse, ok_bind]
    exact finish_intercalate hq hpieces hcreate hrest
  | posix hformat hroot hfirst =>
    have htext : rootText q [slash] ++ [q].intercalate data.elements =
        q :: [q].intercalate data.elements := rfl
    rw [hformat, hroot] at hcreate
    rw [hroot, htext] at hreadable ⊢
    have hnone := parseWindowsRoot_slash hq hreadable (head_intercalate q hpieces)
      (isNt_intercalate hq hfirst)
    rw [parseWindowsPath, hnone, ok_bind]
    simp only
    rw [parseRootSeparator_cons hreadable, if_pos hq, ok_bind]
    exact finish_intercalate hq hpieces hcreate hreadable.tail
  | relative hformat hroot hfirst =>
    have htext : rootText q [] ++ [q].intercalate data.elements =
        [q].intercalate data.elements := rfl
    rw [hformat, hroot] at hcreate
    rw [hroot, htext] at hreadable ⊢
    have hhead := head_intercalate q hpieces
    have hdrive := not_startsWithDrive_intercalate hq hpieces hfirst
    rw [parseWindowsPath, parseWindowsRoot_of_head hreadable hhead,
      parseDriveRoot_none hreadable hdrive, ok_bind]
    simp only
    rw [parseRootSeparator_none hreadable hhead, ok_bind]
    exact finish_intercalate hq hpieces hcreate hreadable

end Reader

/-! ### Texts of paths -/

theorem WindowsRoot.getLast (h : WindowsRoot root) : root ≠ [] ∧ root.getLast? = some slash := by
  cases h with
  | drive h => exact ⟨nofun, rfl⟩
  | unc hserver hshare =>
    rw [uncRoot]
    exact ⟨nofun, List.getLast?_concat⟩

namespace PathData
variable {data : PathData} {root : List Nat}

theorem toString_text (h : data.root ≠ [] → data.root.getLast? = some slash) :
    data.toString = rootText slash data.root ++ [slash].intercalate data.elements := by
  have hno : (!data.root.isEmpty && data.root.getLast? ≠ some slash) = false := by
    cases hroot : data.root with
    | nil => rfl
    | cons c root =>
      rw [hroot] at h
      rw [h nofun]
      exact Bool.and_false _
  rw [toString, hno, appendElements_false, rootText_slash]

theorem windowsRoot_native (h : WindowsRoot root) :
    windowsRoot root .native = rootText backslash root := by
  rcases h.lowered with ⟨letter, hletter, -, rfl⟩ | ⟨server, share, -, -, -, rfl⟩
  · rw [rootText_drive backslash hletter, windowsRoot, if_neg (by simp [driveRootSuffix])]
    rw [doubleSlash, driveRootSuffix, List.isPrefixOf_cons_cons, List.isPrefixOf_cons_cons]
    simp
  · rfl

theorem windowsRoot_valid (format : PathWindowsFormat)
    (h : ∀ c ∈ root, invalidPathCharacters c = false) :
    ∀ c ∈ windowsRoot root format, invalidPathCharacters c = false := by
  have hwritten (skip : Bool) :
      ∀ c ∈ rootWithWindowsSeparators root skip, invalidPathCharacters c = false := by
    intro written hmem
    obtain ⟨c, hc, rfl⟩ := List.mem_map.mp hmem
    have hroot : c ∈ root := by
      cases skip with
      | false => exact hc
      | true => exact List.mem_of_mem_tail hc
    split_ifs
    · rfl
    · exact h c hroot
  have hunc : ∀ c ∈ windowsExtendedNativeUncPathPrefix, invalidPathCharacters c = false := by
    decide
  have hextended : ∀ c ∈ windowsExtendedNativePathPrefix, invalidPathCharacters c = false := by
    decide
  intro c hc
  rw [windowsRoot.eq_def] at hc
  split_ifs at hc
  · cases hc
  · cases format with
    | native => exact hwritten false c hc
    | extended =>
      rcases List.mem_append.mp hc with hc | hc
      · exact hunc c hc
      · exact hwritten true c hc
  · rcases List.mem_append.mp hc with hc | hc
    · rcases List.mem_append.mp hc with hc | hc
      · cases format with
        | native => cases hc
        | extended => exact hextended c hc
      · exact h c (List.mem_of_mem_take hc)
    · rw [List.mem_singleton.mp hc]
      rfl

end PathData

namespace Reader
variable {position : Nat}

/-- The extended root of Windows is read as the root. -/
theorem parseWindowsRoot_windowsExtended (hroot : WindowsRoot root)
    (h : Readable ⟨PathData.windowsRoot root .extended ++ rest, position⟩) : ∃ position',
    parseWindowsRoot ⟨PathData.windowsRoot root .extended ++ rest, position⟩ =
      .ok (some (root, ⟨rest, position'⟩)) ∧ Readable ⟨rest, position'⟩ := by
  have hq : separates backslash = true := rfl
  rcases hroot.lowered with ⟨letter, hletter, hlower, rfl⟩ |
    ⟨server, share, hserver, hshare, hlower, rfl⟩
  · have htext : PathData.windowsRoot (letter :: driveRootSuffix) .extended ++ rest =
        extendedText backslash (letter :: 0x3A :: backslash :: rest) := by
      rw [PathData.windowsRoot, if_neg (by simp [driveRootSuffix]), doubleSlash, driveRootSuffix,
        List.isPrefixOf_cons_cons, List.isPrefixOf_cons_cons]
      simp [windowsExtendedNativePathPrefix, extendedText, backslash]
    rw [htext] at h ⊢
    obtain ⟨position', hparse, hrest⟩ := parseWindowsRoot_extendedDrive hq h hletter
    rw [hlower] at hparse
    exact ⟨position', hparse, hrest⟩
  · have hwritten := rootText_unc backslash hserver hshare
    have htext : PathData.windowsRoot (uncRoot server share) .extended ++ rest =
        extendedText backslash (0x55 :: 0x4E :: 0x43 :: backslash ::
          (server ++ backslash :: (share ++ backslash :: rest))) := by
      have hskipped : PathData.windowsRoot (uncRoot server share) .extended =
          windowsExtendedNativeUncPathPrefix ++ (rootText backslash (uncRoot server share)).tail :=
        rfl
      rw [hskipped, hwritten]
      simp [windowsExtendedNativeUncPathPrefix, extendedText, backslash]
    rw [htext] at h ⊢
    obtain ⟨position', hparse, hrest⟩ := parseWindowsRoot_extendedUnc hq h hserver hshare
    rw [hlower] at hparse
    exact ⟨position', hparse, hrest⟩

end Reader

end ErbslandCore.Path
