import ErbslandCore.Cryptology.Asn1.Asn1Tree
import ErbslandCore.Library.Except

namespace ErbslandCore.Cryptology.DerParser
open Library Mem Asn1Tree
open Mem.ByteReader (Reads advance_reads)
set_option autoImplicit true

theorem bits_tagClassOf (identifier : UInt8) :
    (tagClassOf identifier).bits = identifier.toNat / 64 := by
  have hlt := identifier.toNat_lt
  unfold tagClassOf
  split
  next h => exact h.symm
  next h => exact h.symm
  next h => exact h.symm
  next h₀ h₁ h₂ =>
    have hne : identifier.toNat / 64 ≠ 0 ∧ identifier.toNat / 64 ≠ 1 ∧ identifier.toNat / 64 ≠ 2 :=
      ⟨h₀, h₁, h₂⟩
    change 3 = identifier.toNat / 64
    omega

/-- The class, the form and the lower bits make up the identifier. -/
theorem identifier_eq (identifier : UInt8) :
    (tagClassOf identifier).bits * 64 + (if isConstructedIdentifier identifier then 32 else 0) +
      identifier.toNat % 32 = identifier.toNat := by
  rw [bits_tagClassOf, isConstructedIdentifier]
  by_cases hform : identifier.toNat / 32 % 2 = 1
  · rw [if_pos (by simpa using hform)]
    omega
  · rw [if_neg (by simpa using hform)]
    omega

theorem readByte_reads {reader after : ByteReader} (h : readByte reader = .ok (byte, after)) :
    Reads reader after [byte] := by
  unfold readByte at h
  split at h
  next => cases h
  next first unread hunread =>
    cases h
    exact ⟨hunread, rfl⟩

theorem readTagNumber_reads {reader after : ByteReader}
    (h : readTagNumber identifier reader = .ok (tagNumber, after)) :
    ∃ bytes, Reads reader after bytes ∧ tagNumber < 2 ^ 32 ∧
      identifierBytes (tagClassOf identifier) (isConstructedIdentifier identifier) tagNumber =
        identifier :: bytes := by
  have hidentifier := identifier_eq identifier
  unfold readTagNumber at h
  dsimp only at h
  split at h
  next hlow =>
    cases h
    refine ⟨[], ByteReader.Reads.refl _, by omega, ?_⟩
    rw [identifierBytes, if_pos (by omega), hidentifier, UInt8.ofNat_toNat]
  next hhigh =>
    rw [not_not] at hhigh
    split at h
    next => cases h
    next first unread hunread =>
      split at h
      next => cases h
      next =>
        split at h
        next => cases h
        next => cases h
        next => cases h
        next decoded rest hread =>
          split at h
          next => cases h
          next hlimit =>
            split at h
            next => cases h
            next hlong =>
              cases h
              have hbytes := readMinimalBase128_eq_ok hread
              have hcount : reader.unread.length - rest.length = (toBase128 tagNumber).length := by
                rw [hbytes, List.length_append, Nat.add_sub_cancel]
              have hreads := advance_reads reader (reader.unread.length - rest.length)
              rw [hcount] at hreads ⊢
              rw [hbytes, List.take_left] at hreads
              refine ⟨_, hreads, by omega, ?_⟩
              rw [identifierBytes, if_neg (by omega), ← hhigh, hidentifier, UInt8.ofNat_toNat]

theorem readLength_reads {reader after : ByteReader} (h : readLength reader = .ok (length, after)) :
    Reads reader after (lengthBytes length) := by
  unfold readLength at h
  obtain ⟨⟨first, content⟩, hfirst, h⟩ := bind_eq_ok h
  have hreads := readByte_reads hfirst
  dsimp only at h
  split at h
  next hshort =>
    cases h
    rw [lengthBytes, if_pos hshort, UInt8.ofNat_toNat]
    exact hreads
  next hlong =>
    split at h
    next => cases h
    next hdefinite =>
      split at h
      next => cases h
      next hfew =>
        split at h
        next => cases h
        next hcan =>
          split at h
          next => cases h
          next hminimal =>
            split at h
            next => cases h
            next hleast =>
              cases h
              rw [not_not, ByteReader.canRead, decide_eq_true_eq] at hcan
              have hoctets := advance_reads content (first.toNat % 128)
              have hne : content.unread ≠ [] := by
                intro hnil
                rw [hnil] at hcan
                exact hdefinite (Nat.le_zero.1 hcan)
              obtain ⟨octet, unread, hunread⟩ := List.exists_cons_of_ne_nil hne
              rw [ByteReader.peekByte, hunread, List.headD_cons] at hminimal
              obtain ⟨count, hcount⟩ := Nat.exists_eq_succ_of_ne_zero hdefinite
              have htake : content.unread.take (first.toNat % 128) = octet :: unread.take count := by
                rw [hunread, hcount, List.take_succ_cons]
              have hvalue := minimalOctets_bigEndian hminimal (unread.take count)
              have hlength := congrArg List.length hvalue
              have hfirst : UInt8.ofNat (128 + first.toNat % 128) = first := by
                have hlt := first.toNat_lt
                rw [show 128 + first.toNat % 128 = first.toNat by omega, UInt8.ofNat_toNat]
              rw [length_minimalOctets, ← htake, List.length_take, Nat.min_eq_left hcan] at hlength
              rw [htake] at hoctets hleast hlength ⊢
              rw [lengthBytes, if_neg hleast, Endianness.decode, hlength, hfirst, hvalue]
              exact hreads.trans hoctets

/-- The bytes of a header are those of its tag and its length. -/
theorem readHeader_reads {reader content : ByteReader}
    (h : readHeader reader = .ok ((identifier, tagNumber, length), content)) :
    ∃ bytes, Reads reader content (identifier :: bytes) ∧ length ≤ content.unread.length ∧
      header (tagClassOf identifier) (isConstructedIdentifier identifier) tagNumber length =
        identifier :: bytes := by
  unfold readHeader at h
  obtain ⟨⟨byte, afterByte⟩, hbyte, h⟩ := bind_eq_ok h
  obtain ⟨⟨number, afterTag⟩, htag, h⟩ := bind_eq_ok h
  obtain ⟨⟨count, afterLength⟩, hlength, h⟩ := bind_eq_ok h
  dsimp only at h
  split at h
  next => cases h
  next hcan =>
    cases h
    obtain ⟨bytes, htagReads, -, hidentifier⟩ := readTagNumber_reads htag
    refine ⟨bytes ++ lengthBytes length, ?_, by simpa [ByteReader.canRead] using hcan, ?_⟩
    · exact ((readByte_reads hbyte).trans htagReads).trans (readLength_reads hlength)
    · rw [header, hidentifier, List.cons_append]

/-- A node that was read is the encoding of its tree. -/
def Encodes (reader after : ByteReader) (node : Asn1Node) : Prop :=
  Reads reader after node.tree.encode ∧ node.encodedData = node.tree.encode

theorem parseChildren_reads
    {next : Nat → ByteReader → Except DerError (Asn1Node × Nat × ByteReader)}
    (hnext : ∀ {count reader node count' after},
      next count reader = .ok (node, count', after) → Encodes reader after node)
    (h : parseChildren next endOffset fuel count reader = .ok (children, count', last)) :
    Reads reader last (encodeAll (Asn1Node.trees (children.map (·.1)))) := by
  induction fuel generalizing count reader children with
  | zero =>
    unfold parseChildren at h
    split at h
    next => cases h
    next =>
      cases h
      exact ByteReader.Reads.refl _
  | succ fuel ih =>
    unfold parseChildren at h
    split at h
    next =>
      obtain ⟨⟨child, afterCount, after⟩, hchild, h⟩ := bind_eq_ok h
      dsimp only at h
      split at h
      next => cases h
      next =>
        obtain ⟨⟨rest, restCount, restLast⟩, hrest, h⟩ := bind_eq_ok h
        cases h
        rw [List.map_cons, Asn1Node.trees, encodeAll]
        exact (hnext hchild).1.trans (ih hrest)
    next =>
      cases h
      exact ByteReader.Reads.refl _

theorem parseNode_reads {encoded after : ByteReader}
    (h : parseNode levels count encoded = .ok (node, count', after)) :
    Encodes encoded after node := by
  induction levels generalizing count encoded node count' after with
  | zero => cases h
  | succ levels ih =>
    unfold parseNode at h
    split at h
    next => cases h
    next =>
      obtain ⟨⟨⟨identifier, tagNumber, length⟩, content⟩, hheader, h⟩ := bind_eq_ok h
      obtain ⟨bytes, hreads, hcan, hbytes⟩ := readHeader_reads hheader
      obtain ⟨⟨⟩, -, h⟩ := bind_eq_ok h
      have hposition := hreads.position
      have hdata : encoded.unread.take (content.position + length - encoded.position) =
          (identifier :: bytes) ++ content.unread.take length := by
        rw [hreads.unread, hposition, Nat.add_assoc, Nat.add_sub_cancel_left, List.take_length_add_append]
      have hheaderLength : content.position - encoded.position = (identifier :: bytes).length := by
        omega
      dsimp only at h
      split at h
      next hprimitive =>
        obtain ⟨⟨⟩, -, h⟩ := bind_eq_ok h
        cases h
        have htree : Asn1Tree.encode (.primitive (tagClassOf identifier) tagNumber
            (content.unread.take length)) = (identifier :: bytes) ++ content.unread.take length := by
          rw [Bool.not_eq_true] at hprimitive
          rw [Asn1Tree.encode, List.length_take, Nat.min_eq_left hcan, ← hbytes, hprimitive]
        have hnode : (Asn1Node.node
            (encoded.unread.take (content.position + length - encoded.position))
            (content.position - encoded.position) tagNumber []).tree =
            .primitive (tagClassOf identifier) tagNumber (content.unread.take length) := by
          rw [Asn1Node.tree, hdata, List.cons_append, List.headD_cons, if_neg hprimitive,
            ← List.cons_append, hheaderLength, List.drop_left]
        rw [Encodes, hnode, htree]
        exact ⟨hreads.trans (advance_reads content length), hdata⟩
      next hconstructed =>
        rw [not_not] at hconstructed
        obtain ⟨⟨children, childCount, last⟩, hchildren, h⟩ := bind_eq_ok h
        dsimp only at h
        split at h
        next => cases h
        next hend =>
          rw [not_not] at hend
          have hcontent := parseChildren_reads ih hchildren
          have hnode : (Asn1Node.node
              (encoded.unread.take (content.position + length - encoded.position))
              (content.position - encoded.position) tagNumber (children.map (·.1))).tree =
              .constructed (tagClassOf identifier) tagNumber
                (Asn1Node.trees (children.map (·.1))) := by
            rw [Asn1Node.tree, hdata, List.cons_append, List.headD_cons, if_pos hconstructed]
          have hlength : (encodeAll (Asn1Node.trees (children.map (·.1)))).length = length := by
            have hlast := hcontent.position
            omega
          have htake : content.unread.take length =
              encodeAll (Asn1Node.trees (children.map (·.1))) := by
            rw [hcontent.unread, ← hlength, List.take_left]
          have htree : Asn1Tree.encode (.constructed (tagClassOf identifier) tagNumber
              (Asn1Node.trees (children.map (·.1)))) =
              (identifier :: bytes) ++ encodeAll (Asn1Node.trees (children.map (·.1))) := by
            rw [Asn1Tree.encode, hlength, ← hbytes, hconstructed]
          have hencodes : Encodes encoded last (Asn1Node.node
              (encoded.unread.take (content.position + length - encoded.position))
              (content.position - encoded.position) tagNumber (children.map (·.1))) := by
            rw [Encodes, hnode, htree]
            exact ⟨hreads.trans hcontent, by rw [Asn1Node.encodedData, hdata, htake]⟩
          split at h
          next =>
            obtain ⟨⟨⟩, -, h⟩ := bind_eq_ok h
            cases h
            exact hencodes
          next =>
            cases h
            exact hencodes

/-- An accepted document is the encoding of its tree. -/
theorem parseDocument_encode (h : parseDocument der = .ok root) : der = root.tree.encode := by
  unfold parseDocument at h
  split at h
  next => cases h
  next =>
    split at h
    next => cases h
    next =>
      obtain ⟨⟨node, count, reader⟩, hnode, h⟩ := bind_eq_ok h
      dsimp only at h
      split at h
      next => cases h
      next hend =>
        cases h
        have hreads := (parseNode_reads hnode).1.unread
        rw [not_not, ByteReader.isAtEnd, List.isEmpty_iff] at hend
        rw [hend, List.append_nil] at hreads
        exact hreads

end ErbslandCore.Cryptology.DerParser
