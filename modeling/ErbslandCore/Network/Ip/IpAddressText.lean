import ErbslandCore.Network.Ip.IpAddressGrammar

namespace ErbslandCore.Network.Ip
open Library Math Text.IntegerConversion
open Text (digitValue appendDigits ofDigits)
set_option autoImplicit true

theorem Pieces.mono (hP : ∀ g, P g → Q g) (hE : ∀ t ws, E t ws → F t ws) (h : Pieces P E t ws) :
    Pieces Q F t ws := by
  induction h with
  | last h => exact .last (hE _ _ h)
  | cons hgroup hp _ ih => exact .cons hgroup (hP _ hp) ih

theorem HexEnd.mono (hP : ∀ g, P g → Q g) (h : HexEnd P t ws) : HexEnd Q t ws := by
  obtain ⟨w, hgroup, hp, heq⟩ := h
  exact ⟨w, hgroup, hP _ hp, heq⟩

theorem V6Text.mono (hP : ∀ g, P g → Q g) (hE : ∀ t ws, E t ws → F t ws) (h : V6Text P E t ws) :
    V6Text Q F t ws := by
  cases h with
  | full h hlength => exact .full (h.mono hP hE) hlength
  | compressed hl hr hlength =>
    refine .compressed ?_ ?_ hlength
    · exact hl.imp_right fun h => h.mono hP fun _ _ h => h.mono hP
    · exact hr.imp_right fun h => h.mono hP hE

/-- Groups that look like prefixes are groups. -/
theorem V6Text.any (h : V6Text PlainGroup (AddressEnd PlainGroup) t ws) :
    V6Text AnyGroup (AddressEnd AnyGroup) t ws :=
  h.mono (fun _ _ => trivial) fun _ _ h => h.imp_left fun h => h.mono fun _ _ => trivial

/-- A text ends with another character than a colon. -/
def EndsPiece (t : List Nat) : Prop := ∃ c, t.getLast? = some c ∧ c ≠ 0x3A

theorem endsPiece_of_digits {b : Nat} (hvalue : ofDigits b g = some v) (hne : 1 ≤ g.length) :
    EndsPiece g := by
  rcases List.eq_nil_or_concat' g with rfl | ⟨init, c, rfl⟩
  · exact absurd hne (by decide)
  · obtain ⟨digit, hdigit⟩ := Option.isSome_iff_exists.mp (isSome_of_appendDigits hvalue
      (List.mem_append_right init (List.mem_singleton_self c)))
    have hrange := digit_range hdigit
    exact ⟨c, List.getLast?_concat, by omega⟩

theorem EndsPiece.append (h : EndsPiece t) (init : List Nat) : EndsPiece (init ++ t) := by
  obtain ⟨c, hlast, hc⟩ := h
  exact ⟨c, by rw [List.getLast?_append, hlast, Option.some_or], hc⟩

theorem EndsPiece.ne_colon (h : EndsPiece t) : t.getLast? ≠ some 0x3A := by
  obtain ⟨c, hlast, hc⟩ := h
  rw [hlast, ne_eq, Option.some.injEq]
  exact hc

theorem Dotted.endsPiece (h : Dotted t bs) : EndsPiece t := by
  induction h with
  | last h => exact endsPiece_of_digits h.value h.length_pos
  | @cons g b t bs _ _ ih => exact (ih.append [0x2E]).append g

theorem HexEnd.endsPiece (h : HexEnd P t ws) : EndsPiece t := by
  obtain ⟨w, hgroup, -, -⟩ := h
  exact endsPiece_of_digits hgroup.value hgroup.length_pos

theorem AddressEnd.endsPiece (h : AddressEnd P t ws) : EndsPiece t := by
  rcases h with h | ⟨bs, h, -⟩
  · exact h.endsPiece
  · exact h.1.endsPiece

theorem Pieces.endsPiece (hE : ∀ t ws, E t ws → EndsPiece t) (h : Pieces P E t ws) :
    EndsPiece t := by
  induction h with
  | last h => exact hE _ _ h
  | @cons g w t ws _ _ _ ih => exact (ih.append [0x3A]).append g

/-- The text of an address of groups, with one colon too much. -/
def Dangling (t ws : List Nat) : Prop :=
  ∃ t', t = t' ++ [0x3A] ∧ t'.getLast? ≠ some 0x3A ∧
    V6Text PlainGroup (HexEnd PlainGroup) t' ws

theorem pieces_parsedEnd (h : Pieces PlainGroup ParsedEnd t ws) :
    Pieces PlainGroup (AddressEnd PlainGroup) t ws ∨
      ∃ t', t = t' ++ [0x3A] ∧ Pieces PlainGroup (HexEnd PlainGroup) t' ws := by
  induction h with
  | last h =>
    rcases h with h | ⟨g, rfl, h⟩
    · exact .inl (.last h)
    · exact .inr ⟨g, rfl, .last h⟩
  | @cons g w t ws hgroup hp _ ih =>
    rcases ih with ih | ⟨t', rfl, ih⟩
    · exact .inl (.cons hgroup hp ih)
    · refine .inr ⟨g ++ 0x3A :: t', ?_, .cons hgroup hp ih⟩
      rw [List.append_assoc, List.cons_append]

theorem pieces_dangling (h : Pieces PlainGroup (HexEnd PlainGroup) t ws) :
    Pieces PlainGroup ParsedEnd (t ++ [0x3A]) ws := by
  induction h with
  | last h => exact .last (.inr ⟨_, rfl, h⟩)
  | cons hgroup hp _ ih =>
    rw [List.append_assoc, List.cons_append]
    exact .cons hgroup hp ih

/-- What the parser accepts besides addresses. -/
theorem v6Text_parsedEnd_iff : V6Text PlainGroup ParsedEnd t ws ↔
    V6Text PlainGroup (AddressEnd PlainGroup) t ws ∨ Dangling t ws := by
  constructor
  · intro h
    cases h with
    | full hpieces hlength =>
      rcases pieces_parsedEnd hpieces with haddress | ⟨t', rfl, hgroups⟩
      · exact .inl (.full haddress hlength)
      · have hends := hgroups.endsPiece fun _ _ h => h.endsPiece
        exact .inr ⟨t', rfl, hends.ne_colon, .full hgroups hlength⟩
    | @compressed l ls r rs hl hr hlength =>
      rcases hr with hnone | hpieces
      · exact .inl (.compressed hl (.inl hnone) hlength)
      rcases pieces_parsedEnd hpieces with haddress | ⟨r', rfl, hgroups⟩
      · exact .inl (.compressed hl (.inr haddress) hlength)
      · refine .inr ⟨l ++ 0x3A :: 0x3A :: r', ?_, ?_, .compressed hl (.inr hgroups) hlength⟩
        · rw [List.append_assoc, List.cons_append, List.cons_append]
        · have hends := hgroups.endsPiece fun _ _ h => h.endsPiece
          exact ((hends.append [0x3A, 0x3A]).append l).ne_colon
  · rintro (h | ⟨t', rfl, hlast, h⟩)
    · exact h.mono (fun _ h => h) fun _ _ h => .inl h
    · cases h with
      | full hgroups hlength => exact .full (pieces_dangling hgroups) hlength
      | @compressed l ls r rs hl hr hlength =>
        rcases hr with ⟨rfl, -⟩ | hgroups
        · refine absurd ?_ hlast
          rw [List.getLast?_append]
          rfl
        · rw [List.append_assoc, List.cons_append, List.cons_append]
          exact .compressed hl (.inr (pieces_dangling hgroups)) hlength

/-- A text with one colon too much is no address. -/
theorem Dangling.not_address (h : Dangling t ws) :
    ¬ V6Text AnyGroup (AddressEnd AnyGroup) t ws' := by
  obtain ⟨t', rfl, hlast, -⟩ := h
  have hcolon : (t' ++ [0x3A]).getLast? = some 0x3A := List.getLast?_concat
  intro haddress
  generalize ht : t' ++ [0x3A] = t at haddress
  rw [ht] at hcolon
  cases haddress with
  | full hpieces _ => exact (hpieces.endsPiece fun _ _ h => h.endsPiece).ne_colon hcolon
  | @compressed l ls r rs _ hr _ =>
    rcases hr with ⟨rfl, -⟩ | hpieces
    · have hsplit : t' ++ [0x3A] = (l ++ [0x3A]) ++ [0x3A] := by
        rw [ht, List.append_assoc]
        rfl
      apply hlast
      rw [List.append_cancel_right hsplit]
      exact List.getLast?_concat
    · have hends := hpieces.endsPiece fun _ _ h => h.endsPiece
      exact ((hends.append [0x3A, 0x3A]).append l).ne_colon hcolon

/-- No group of a text starts like the prefix of a binary number. -/
def PlainGroups (t : List Nat) : Prop :=
  ∀ before after, t = before ++ after → before = [] ∨ before.getLast? = some 0x3A → PlainGroup after

theorem plainGroup_append (hrest : Stops rest) : PlainGroup (g ++ rest) ↔ PlainGroup g := by
  match g with
  | [] =>
    refine iff_of_true ?_ nofun
    rw [List.nil_append]
    intro hhead
    rcases hrest with hrest | hrest | hrest <;>
    · rw [hrest] at hhead
      cases hhead
  | [c] =>
    refine imp_congr_right fun _ => iff_of_true ?_ ⟨nofun, nofun⟩
    rw [List.singleton_append, List.tail_cons]
    rcases hrest with hrest | hrest | hrest <;>
    · rw [hrest]
      exact ⟨by decide, by decide⟩
  | c :: c' :: g => exact Iff.rfl

/-- A colon separates the groups before it from the groups after it. -/
theorem plainGroups_append : PlainGroups (l ++ 0x3A :: t) ↔ PlainGroups l ∧ PlainGroups t := by
  constructor
  · intro h
    constructor
    · rintro before after rfl hstart
      have hplain := h before (after ++ 0x3A :: t) (List.append_assoc _ _ _) hstart
      exact (plainGroup_append (stops_colon t)).mp hplain
    · rintro before after rfl hstart
      refine h (l ++ 0x3A :: before) after (by rw [List.append_assoc, List.cons_append]) (.inr ?_)
      rw [List.getLast?_append, List.getLast?_cons]
      rcases hstart with rfl | hlast
      · rfl
      · rw [hlast]
        rfl
  · rintro ⟨hl, ht⟩ before after heq hstart
    rcases List.append_eq_append_iff.mp heq with ⟨mid, rfl, hmid⟩ | ⟨mid, rfl, rfl⟩
    · cases mid with
      | nil =>
        rw [← List.nil_append after, ← hmid]
        exact nofun
      | cons c mid =>
        obtain ⟨rfl, rfl⟩ := List.cons.inj hmid
        refine ht mid after rfl ?_
        rcases List.eq_nil_or_concat' mid with rfl | ⟨init, c, rfl⟩
        · exact .inl rfl
        · have hlast := hstart.resolve_left (List.append_ne_nil_of_right_ne_nil _ (by simp))
          rw [List.getLast?_append, List.getLast?_cons, List.getLast?_concat] at hlast
          rw [List.getLast?_concat]
          exact .inr hlast
    · exact (plainGroup_append (stops_colon t)).mpr (hl before mid rfl hstart)

theorem plainGroups_of_no_colon (h : 0x3A ∉ g) : PlainGroups g ↔ PlainGroup g := by
  constructor
  · intro hplain
    exact hplain [] g rfl (.inl rfl)
  · rintro hplain before after rfl (rfl | hlast)
    · exact hplain
    · exact absurd (List.mem_append_left after (List.mem_of_getLast? hlast)) h

theorem no_colon_of_digits {b : Nat} (hvalue : ofDigits b g = some v) : 0x3A ∉ g := by
  intro hmem
  obtain ⟨digit, hdigit⟩ := Option.isSome_iff_exists.mp (isSome_of_appendDigits hvalue hmem)
  have hrange := digit_range hdigit
  omega

theorem Dotted.no_colon (h : Dotted t bs) : 0x3A ∉ t := by
  induction h with
  | last h => exact no_colon_of_digits h.value
  | cons h _ ih =>
    intro hmem
    rcases List.mem_append.mp hmem with hmem | hmem
    · exact no_colon_of_digits h.value hmem
    · rcases List.mem_cons.mp hmem with heq | hmem
      · cases heq
      · exact ih hmem

theorem Dotted.plainGroups (h : Dotted t bs) : PlainGroups t := by
  rw [plainGroups_of_no_colon h.no_colon]
  cases h with
  | last h => exact h.hexGroup.2
  | cons h _ => exact (plainGroup_append (stops_point _)).mpr h.hexGroup.2

theorem HexEnd.plainGroups_iff (h : HexEnd P t ws) : PlainGroups t ↔ PlainGroup t := by
  obtain ⟨w, hgroup, -, -⟩ := h
  exact plainGroups_of_no_colon (no_colon_of_digits hgroup.value)

theorem HexEnd.plain (h : HexEnd AnyGroup t ws) (hplain : PlainGroups t) : HexEnd PlainGroup t ws := by
  have hp := h.plainGroups_iff.mp hplain
  obtain ⟨w, hgroup, -, heq⟩ := h
  exact ⟨w, hgroup, hp, heq⟩

theorem HexEnd.plainGroups (h : HexEnd PlainGroup t ws) : PlainGroups t := by
  have hiff := h.plainGroups_iff
  obtain ⟨w, -, hp, -⟩ := h
  exact hiff.mpr hp

theorem AddressEnd.plain (h : AddressEnd AnyGroup t ws) (hplain : PlainGroups t) :
    AddressEnd PlainGroup t ws := h.imp_left fun h => h.plain hplain

theorem AddressEnd.plainGroups (h : AddressEnd PlainGroup t ws) : PlainGroups t := by
  rcases h with h | ⟨bs, h, -⟩
  · exact h.plainGroups
  · exact h.1.plainGroups

theorem Pieces.plain (hE : ∀ t ws, E t ws → PlainGroups t → F t ws) (h : Pieces AnyGroup E t ws)
    (hplain : PlainGroups t) : Pieces PlainGroup F t ws := by
  induction h with
  | last h => exact .last (hE _ _ h hplain)
  | cons hgroup _ _ ih =>
    obtain ⟨hg, ht⟩ := plainGroups_append.mp hplain
    have hp := (plainGroups_of_no_colon (no_colon_of_digits hgroup.value)).mp hg
    exact .cons hgroup hp (ih ht)

theorem Pieces.plainGroups (hE : ∀ t ws, E t ws → PlainGroups t) (h : Pieces PlainGroup E t ws) :
    PlainGroups t := by
  induction h with
  | last h => exact hE _ _ h
  | cons hgroup hp _ ih =>
    have hg := (plainGroups_of_no_colon (no_colon_of_digits hgroup.value)).mpr hp
    exact plainGroups_append.mpr ⟨hg, ih⟩

theorem plainGroups_nil : PlainGroups [] := by
  rw [plainGroups_of_no_colon List.not_mem_nil]
  exact nofun

/-- The addresses without groups that look like prefixes. -/
theorem v6Text_plain_iff : V6Text PlainGroup (AddressEnd PlainGroup) t ws ↔
    V6Text AnyGroup (AddressEnd AnyGroup) t ws ∧ PlainGroups t := by
  constructor
  · intro h
    refine ⟨h.any, ?_⟩
    cases h with
    | full hpieces _ => exact hpieces.plainGroups fun _ _ h => h.plainGroups
    | @compressed l ls r rs hl hr _ =>
      refine plainGroups_append.mpr ⟨?_, ?_⟩
      · rcases hl with ⟨rfl, -⟩ | hpieces
        · exact plainGroups_nil
        · exact hpieces.plainGroups fun _ _ h => h.plainGroups
      · rw [← List.nil_append (0x3A :: r), plainGroups_append]
        refine ⟨plainGroups_nil, ?_⟩
        rcases hr with ⟨rfl, -⟩ | hpieces
        · exact plainGroups_nil
        · exact hpieces.plainGroups fun _ _ h => h.plainGroups
  · rintro ⟨h, hplain⟩
    cases h with
    | full hpieces hlength =>
      exact .full (hpieces.plain (fun _ _ h hp => h.plain hp) hplain) hlength
    | @compressed l ls r rs hl hr hlength =>
      obtain ⟨hplainl, hplainr⟩ := plainGroups_append.mp hplain
      rw [← List.nil_append (0x3A :: r), plainGroups_append] at hplainr
      refine .compressed ?_ ?_ hlength
      · exact hl.imp_right fun h => h.plain (fun _ _ h hp => h.plain hp) hplainl
      · exact hr.imp_right fun h => h.plain (fun _ _ h hp => h.plain hp) hplainr.2

theorem AddressEnd.length_le (h : AddressEnd P t ws) : ws.length ≤ 2 := by
  rcases h with ⟨w, -, -, rfl⟩ | ⟨bs, h, rfl⟩
  · exact Nat.le_succ 1
  · exact (length_v4Words h.2).le

/-- Every IPv6 address has a colon. -/
theorem V6Text.colon (h : V6Text P (AddressEnd P) t ws) : 0x3A ∈ t := by
  cases h with
  | full hpieces hlength =>
    cases hpieces with
    | last h =>
      have hle := h.length_le
      omega
    | cons _ _ _ => exact List.mem_append_right _ List.mem_cons_self
  | compressed _ _ _ => exact List.mem_append_right _ List.mem_cons_self

theorem V4Text.not_v6Text (h : V4Text t bs) : ¬ V6Text P (AddressEnd P) t ws :=
  fun h' => h.1.no_colon h'.colon

theorem V6Text.length (h : V6Text P E t ws) : ws.length = 8 := by
  cases h with
  | full _ hlength => exact hlength
  | compressed _ _ hlength =>
    rw [List.length_append, List.length_append, List.length_replicate]
    omega

namespace IpAddress

theorem eq_of_bytes {a b : IpAddress} (hversion : a.version = b.version) (hbytes : a.bytes = b.bytes) :
    a = b := by
  cases a
  cases b
  cases hversion
  cases hbytes
  rfl

theorem length_wordBytes (words : List Nat) : (wordBytes words).length = 2 * words.length := by
  induction words with
  | nil => rfl
  | cons word words ih =>
    rw [wordBytes, List.flatMap_cons, ← wordBytes, List.length_append, ih, Nat.add_comm]
    rfl

theorem storage_append (bytes : List UInt8) (h : bytes.length ≤ 16) :
    storage bytes = bytes ++ List.replicate (16 - bytes.length) 0 := by
  rw [storage, List.take_append, List.take_of_length_le h, List.take_replicate,
    Nat.min_eq_left (Nat.sub_le _ _)]

theorem ofV4Bytes_bytes (h : bs.length = 4) :
    (ofV4Bytes bs).bytes = bs ++ List.replicate 12 0 := by
  have hfour : bs.take 4 ++ List.replicate (4 - bs.length) 0 = bs := by
    rw [h, List.take_of_length_le h.le, Nat.sub_self, List.replicate_zero, List.append_nil]
  have hbytes : (ofV4Bytes bs).bytes =
      storage (bs.take 4 ++ List.replicate (4 - bs.length) 0) := rfl
  rw [hbytes, hfour, storage_append bs (h.trans_le (by decide)), h]

theorem ofV6Bytes_bytes (h : bs.length = 16) : (ofV6Bytes bs).bytes = bs := by
  have hbytes : (ofV6Bytes bs).bytes = storage bs := rfl
  rw [hbytes, storage_append bs h.le, h, Nat.sub_self, List.replicate_zero, List.append_nil]

end IpAddress

/-- The address that a text denotes. -/
def Denotes (t : List Nat) (address : IpAddress) : Prop :=
  match address.version with
  | .v4 => ∃ bs, V4Text t bs ∧ address.bytes = bs.map UInt8.ofNat ++ List.replicate 12 0
  | .v6 => ∃ ws, V6Text AnyGroup (AddressEnd AnyGroup) t ws ∧
      address.bytes = IpAddress.wordBytes ws

/-- One colon too much behind an address, or an address with a group that starts like the prefix of
a binary number. -/
def Misread (t : List Nat) : Prop :=
  (∃ ws, Dangling t ws) ∨ (∃ ws, V6Text AnyGroup (AddressEnd AnyGroup) t ws) ∧ ¬ PlainGroups t

theorem denotes_v4 (h : V4Text t bs) : Denotes t (.ofV4Bytes (bs.map UInt8.ofNat)) :=
  ⟨bs, h, IpAddress.ofV4Bytes_bytes ((List.length_map _).trans h.2)⟩

theorem ofV6Bytes_words (h : V6Text P E t ws) :
    (IpAddress.ofV6Bytes (IpAddress.wordBytes ws)).bytes = IpAddress.wordBytes ws :=
  IpAddress.ofV6Bytes_bytes ((IpAddress.length_wordBytes ws).trans (congrArg (2 * ·) h.length))

theorem denotes_v6 (h : V6Text AnyGroup (AddressEnd AnyGroup) t ws) :
    Denotes t (.ofV6Bytes (IpAddress.wordBytes ws)) :=
  ⟨ws, h, ofV6Bytes_words h⟩

/-- The texts of an address, as the address that is built from them. -/
theorem Denotes.cases (h : Denotes t a) :
    (∃ bs, V4Text t bs ∧ a = .ofV4Bytes (bs.map UInt8.ofNat)) ∨
      ∃ ws, V6Text AnyGroup (AddressEnd AnyGroup) t ws ∧ a = .ofV6Bytes (IpAddress.wordBytes ws) := by
  rw [Denotes] at h
  split at h
  · rename_i hversion
    obtain ⟨bs, htext, hbytes⟩ := h
    obtain ⟨bs', -, hbytes'⟩ := denotes_v4 htext
    refine .inl ⟨bs, htext, IpAddress.eq_of_bytes hversion (hbytes.trans ?_)⟩
    exact (IpAddress.ofV4Bytes_bytes ((List.length_map _).trans htext.2)).symm
  · rename_i hversion
    obtain ⟨ws, htext, hbytes⟩ := h
    exact .inr ⟨ws, htext, IpAddress.eq_of_bytes hversion (hbytes.trans (ofV6Bytes_words htext).symm)⟩

namespace IpAddress
open Text.Utf8 (characters)
variable {text : List UInt8} (htest : testCommonHostText text "IP-address" = .ok ())
include htest

theorem fromStringOrThrow_v4 (h : V4Text (characters text) bs) :
    fromStringOrThrow text = .ok (ofV4Bytes (bs.map UInt8.ofNat)) := by
  rw [fromStringOrThrow, htest]
  have hparse := (parseV4_iff 0 _ _).mpr h
  simp only [ok_bind, hparse]

theorem fromStringOrThrow_v6 (h : V6Text PlainGroup ParsedEnd (characters text) ws)
    (hcolon : 0x3A ∈ characters text) :
    fromStringOrThrow text = .ok (ofV6Bytes (wordBytes ws)) := by
  have hnone : parseV4 { remaining := characters text } = none := by
    cases hparse : parseV4 { remaining := characters text } with
    | none => rfl
    | some bs => exact absurd hcolon ((parseV4_iff 0 _ _).mp hparse).1.no_colon
  have hparse := (parseV6_iff 0 _ _).mpr h
  rw [fromStringOrThrow, htest]
  simp only [ok_bind, hnone, hparse]

theorem fromStringOrThrow_cases (h : fromStringOrThrow text = .ok a) :
    (∃ bs, V4Text (characters text) bs ∧ a = ofV4Bytes (bs.map UInt8.ofNat)) ∨
      ∃ ws, V6Text PlainGroup ParsedEnd (characters text) ws ∧ a = ofV6Bytes (wordBytes ws) := by
  rw [fromStringOrThrow, htest] at h
  simp only [ok_bind] at h
  split at h
  · rename_i bs hparse
    exact .inl ⟨bs, (parseV4_iff 0 _ _).mp hparse, (Except.ok.inj h).symm⟩
  · split at h
    · rename_i ws hparse
      exact .inr ⟨ws, (parseV6_iff 0 _ _).mp hparse, (Except.ok.inj h).symm⟩
    · split_ifs at h

theorem fromStringOrThrow_misread (h : Misread (characters text)) :
    ¬ ∀ a, fromStringOrThrow text = .ok a ↔ Denotes (characters text) a := by
  intro hiff
  rcases h with ⟨ws, hdangling⟩ | ⟨⟨ws, haddress⟩, hplain⟩
  · have hcolon : 0x3A ∈ characters text := by
      obtain ⟨t', heq, -, -⟩ := hdangling
      rw [heq]
      exact List.mem_append_right _ (List.mem_singleton_self _)
    have hread := fromStringOrThrow_v6 htest (v6Text_parsedEnd_iff.mpr (.inr hdangling)) hcolon
    obtain ⟨ws', haddress, -⟩ := (hiff _).mp hread
    exact hdangling.not_address haddress
  · have hread := (hiff _).mpr (denotes_v6 haddress)
    rcases fromStringOrThrow_cases htest hread with ⟨bs, htext, -⟩ | ⟨ws', htext, -⟩
    · exact htext.not_v6Text haddress
    · rcases v6Text_parsedEnd_iff.mp htext with hplain' | hdangling
      · exact hplain (v6Text_plain_iff.mp hplain').2
      · exact hdangling.not_address haddress

theorem fromStringOrThrow_denotes (h : ¬ Misread (characters text)) (a : IpAddress) :
    fromStringOrThrow text = .ok a ↔ Denotes (characters text) a := by
  obtain ⟨hdangling, hplain⟩ := not_or.mp h
  constructor
  · intro hread
    rcases fromStringOrThrow_cases htest hread with ⟨bs, htext, rfl⟩ | ⟨ws, htext, rfl⟩
    · exact denotes_v4 htext
    · rcases v6Text_parsedEnd_iff.mp htext with haddress | hd
      · exact denotes_v6 haddress.any
      · exact absurd ⟨ws, hd⟩ hdangling
  · intro hdenotes
    rcases hdenotes.cases with ⟨bs, htext, rfl⟩ | ⟨ws, htext, rfl⟩
    · exact fromStringOrThrow_v4 htest htext
    · have hgroups : PlainGroups (characters text) := by
        by_contra hnot
        exact hplain ⟨⟨ws, htext⟩, hnot⟩
      have haddress := v6Text_plain_iff.mpr ⟨htext, hgroups⟩
      exact fromStringOrThrow_v6 htest (v6Text_parsedEnd_iff.mpr (.inl haddress)) htext.colon

end IpAddress

end ErbslandCore.Network.Ip
