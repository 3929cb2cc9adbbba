import ErbslandCore.Cryptology.Asn1.DerCanonical
import ErbslandCore.Cryptology.Asn1.DerParserProgress

namespace ErbslandCore.Cryptology.DerParser
open Library Mem Asn1Tree
open Mem.ByteReader (Reads advance_append canRead_of_append)
set_option autoImplicit true

theorem toNat_form (tagClass : Asn1TagClass) (constructed : Bool) (hlow : low < 32) :
    (UInt8.ofNat (tagClass.bits * 64 + (if constructed then 32 else 0) + low)).toNat =
      tagClass.bits * 64 + (if constructed then 32 else 0) + low := by
  have hbits : tagClass.bits < 4 := by cases tagClass <;> decide
  have hform : (if constructed then 32 else 0) ≤ 32 := by cases constructed <;> decide
  rw [UInt8.toNat_ofNat']
  omega

theorem tagClassOf_form (tagClass : Asn1TagClass) (constructed : Bool) (hlow : low < 32) :
    tagClassOf (UInt8.ofNat (tagClass.bits * 64 + (if constructed then 32 else 0) + low)) =
      tagClass := by
  have hform : (if constructed then 32 else 0) ≤ 32 := by cases constructed <;> decide
  have hbits : (tagClass.bits * 64 + (if constructed then 32 else 0) + low) / 64 =
      tagClass.bits := by omega
  rw [tagClassOf, toNat_form tagClass constructed hlow, hbits]
  cases tagClass <;> rfl

theorem isConstructedIdentifier_form (tagClass : Asn1TagClass) (constructed : Bool)
    (hlow : low < 32) :
    isConstructedIdentifier
      (UInt8.ofNat (tagClass.bits * 64 + (if constructed then 32 else 0) + low)) = constructed := by
  rw [isConstructedIdentifier, toNat_form tagClass constructed hlow]
  cases constructed with
  | false =>
    simp only [Bool.false_eq_true, if_false, decide_eq_false_iff_not]
    omega
  | true =>
    simp only [if_true, decide_eq_true_eq]
    omega

/-- A tag is read back from its bytes. -/
theorem identifierBytes_read (tagClass : Asn1TagClass) (constructed : Bool)
    (htag : tagNumber < 2 ^ 32) :
    ∃ identifier bytes, identifierBytes tagClass constructed tagNumber = identifier :: bytes ∧
      tagClassOf identifier = tagClass ∧ isConstructedIdentifier identifier = constructed ∧
      ∀ (reader : ByteReader) rest, reader.unread = bytes ++ rest →
        readTagNumber identifier reader =
          .ok (tagNumber, ⟨reader.position + bytes.length, rest⟩) := by
  unfold identifierBytes
  by_cases hlow : tagNumber < 31
  · have hlow' : tagNumber < 32 := by omega
    refine ⟨_, [], if_pos hlow, tagClassOf_form tagClass constructed hlow',
      isConstructedIdentifier_form tagClass constructed hlow', fun reader rest hreader => ?_⟩
    have hnumber : (UInt8.ofNat (tagClass.bits * 64 + (if constructed then 32 else 0) +
        tagNumber)).toNat % 32 = tagNumber := by
      rw [toNat_form tagClass constructed hlow']
      split <;> omega
    rw [readTagNumber, hnumber, if_pos (by omega), ← List.nil_append rest, ← hreader]
    rfl
  · refine ⟨_, toBase128 tagNumber, if_neg hlow, tagClassOf_form tagClass constructed (by decide),
      isConstructedIdentifier_form tagClass constructed (by decide), fun reader rest hreader => ?_⟩
    have hnumber : (UInt8.ofNat (tagClass.bits * 64 + (if constructed then 32 else 0) +
        31)).toNat % 32 = 31 := by
      rw [toNat_form tagClass constructed (by decide)]
      split <;> omega
    obtain ⟨first, hfirst, -, hleading⟩ := head_toBase128 tagNumber rest
    rw [← hreader, List.head?_eq_some_iff] at hfirst
    obtain ⟨unread, hunread⟩ := hfirst
    have hread : readMinimalBase128 (2 ^ 64) reader.unread = .ok (tagNumber, rest) := by
      rw [hreader]
      exact readMinimalBase128_toBase128 (by omega) rest
    have hcount : reader.unread.length - rest.length = (toBase128 tagNumber).length := by
      rw [hreader, List.length_append, Nat.add_sub_cancel]
    rw [readTagNumber, hnumber, if_neg (by decide), hunread]
    dsimp only
    rw [if_neg (hleading (by omega)), ← hunread, hread]
    dsimp only
    rw [if_neg (by omega), if_neg hlow, hcount, advance_append hreader]

theorem readByte_cons {reader : ByteReader} (h : reader.unread = byte :: rest) :
    readByte reader = .ok (byte, ⟨reader.position + 1, rest⟩) := by
  rw [readByte, h]

/-- A length is read back from its bytes. -/
theorem readLength_lengthBytes {reader : ByteReader} (hlength : length < 2 ^ 24)
    (h : reader.unread = lengthBytes length ++ rest) :
    readLength reader = .ok (length, ⟨reader.position + (lengthBytes length).length, rest⟩) := by
  rw [lengthBytes] at h ⊢
  by_cases hshort : length < 128
  · rw [if_pos hshort] at h ⊢
    have hvalue : (UInt8.ofNat length).toNat = length := by
      rw [UInt8.toNat_ofNat']
      omega
    rw [readLength, readByte_cons h, ok_bind]
    dsimp only
    rw [if_pos (by omega), hvalue]
    rfl
  · rw [if_neg hshort] at h ⊢
    rw [List.cons_append] at h
    have hcount : octetCount length ≤ 3 := octetCount_le (by decide) hlength
    have hpos : 0 < octetCount length := Nat.succ_pos _
    have hvalue : (UInt8.ofNat (128 + octetCount length)).toNat = 128 + octetCount length := by
      rw [UInt8.toNat_ofNat']
      omega
    have hoctets : (128 + octetCount length) % 128 = (minimalOctets length).length := by
      rw [length_minimalOctets]
      omega
    obtain ⟨first, bytes, hbytes, hfirst⟩ := head_minimalOctets (show length ≠ 0 by omega)
    have hpeek : (⟨reader.position + 1, minimalOctets length ++ rest⟩ : ByteReader).peekByte = first := by
      rw [ByteReader.peekByte, hbytes, List.cons_append, List.headD_cons]
    rw [readLength, readByte_cons h, ok_bind]
    dsimp only
    rw [hvalue, if_neg (by omega), if_neg (by omega), if_neg (by omega), hoctets,
      canRead_of_append rfl, if_neg (by decide), hpeek, if_neg hfirst, List.take_left,
      Endianness.decode, bigEndian_minimalOctets, if_neg hshort, advance_append rfl,
      List.length_cons, Nat.add_assoc, Nat.add_comm 1]

/-- A header is read back from its bytes. -/
theorem readHeader_header {reader : ByteReader} {constructed : Bool} (htag : tagNumber < 2 ^ 32)
    (hlength : length < 2 ^ 24) (hrest : length ≤ rest.length)
    (h : reader.unread = header tagClass constructed tagNumber length ++ rest) :
    ∃ identifier bytes, header tagClass constructed tagNumber length = identifier :: bytes ∧
      tagClassOf identifier = tagClass ∧ isConstructedIdentifier identifier = constructed ∧
      readHeader reader = .ok ((identifier, tagNumber, length),
        ⟨reader.position + (header tagClass constructed tagNumber length).length, rest⟩) := by
  obtain ⟨identifier, bytes, hidentifier, hclass, hform, hread⟩ :=
    identifierBytes_read tagClass constructed htag
  have hbytes : header tagClass constructed tagNumber length =
      identifier :: (bytes ++ lengthBytes length) := by
    rw [header, hidentifier, List.cons_append]
  rw [hbytes, List.cons_append, List.append_assoc] at h
  refine ⟨identifier, bytes ++ lengthBytes length, hbytes, hclass, hform, ?_⟩
  rw [readHeader, readByte_cons h, ok_bind]
  dsimp only
  rw [hread _ _ rfl, ok_bind]
  dsimp only
  rw [readLength_lengthBytes hlength rfl, ok_bind]
  dsimp only
  rw [if_neg (by simpa [ByteReader.canRead] using hrest), hbytes, List.length_cons,
    List.length_append]
  congr 3
  omega

theorem validateSetOrder_ok {children : List (Asn1Node × Nat)}
    (h : (children.map (·.1.encodedData)).Pairwise fun left right => ¬ right < left) :
    validateSetOrder children = .ok () := by
  fun_induction validateSetOrder children with
  | case1 previous _ current _ _ hless =>
    rw [List.map_cons, List.map_cons, List.pairwise_cons] at h
    exact absurd hless (h.1 _ (List.mem_cons_self ..))
  | case2 previous _ current _ _ _ ih =>
    rw [List.map_cons, List.pairwise_cons] at h
    exact ih h.2
  | case3 => rfl

/-- The parser reads a tree, whatever follows it. -/
def Accepts (next : Nat → ByteReader → Except DerError (Asn1Node × Nat × ByteReader))
    (tree : Asn1Tree) : Prop :=
  ∀ count (reader : ByteReader) rest, count + tree.nodeCount ≤ cMaximumNodes →
    reader.unread = tree.encode ++ rest →
    ∃ node, next count reader = .ok (node, count + tree.nodeCount,
      ⟨reader.position + tree.encode.length, rest⟩) ∧
      node.tree = tree ∧ node.encodedData = tree.encode

theorem parseChildren_encodeAll
    {next : Nat → ByteReader → Except DerError (Asn1Node × Nat × ByteReader)}
    (hnext : ∀ tree ∈ trees, Accepts next tree) (count fuel : Nat) (reader : ByteReader)
    (rest : List UInt8) (hcount : count + nodeCountAll trees ≤ cMaximumNodes)
    (hfuel : (encodeAll trees).length ≤ fuel) (h : reader.unread = encodeAll trees ++ rest) :
    ∃ children, parseChildren next (reader.position + (encodeAll trees).length) fuel count reader =
        .ok (children, count + nodeCountAll trees,
          ⟨reader.position + (encodeAll trees).length, rest⟩) ∧
      Asn1Node.trees (children.map (·.1)) = trees ∧
      children.map (·.1.encodedData) = trees.map encode := by
  induction trees generalizing reader count fuel with
  | nil =>
    refine ⟨[], ?_, rfl, rfl⟩
    unfold parseChildren
    rw [encodeAll, List.nil_append] at h
    rw [encodeAll, List.length_nil, Nat.add_zero, if_neg (Nat.lt_irrefl _), nodeCountAll, ← h]
    rfl
  | cons tree trees ih =>
    have hpos := encode_length_pos tree
    rw [encodeAll, List.length_append] at hfuel
    rw [nodeCountAll] at hcount
    rw [encodeAll, List.append_assoc] at h
    obtain ⟨node, hnode, htree, hdata⟩ :=
      hnext tree (List.mem_cons_self ..) count reader (encodeAll trees ++ rest) (by omega) h
    cases fuel with
    | zero => omega
    | succ fuel =>
      obtain ⟨children, hchildren, htrees, hdatas⟩ :=
        ih (fun t ht => hnext t (List.mem_cons_of_mem _ ht)) (count + tree.nodeCount) fuel
          ⟨reader.position + tree.encode.length, encodeAll trees ++ rest⟩ (by omega) (by omega) rfl
      refine ⟨(node, reader.position) :: children, ?_, ?_, ?_⟩
      · unfold parseChildren
        rw [encodeAll, List.length_append, if_pos (by omega)]
        dsimp only
        rw [hnode, ok_bind]
        dsimp only
        rw [if_neg (by omega), ← Nat.add_assoc, hchildren, ok_bind, nodeCountAll, Nat.add_assoc count]
      · rw [List.map_cons, Asn1Node.trees, htree, htrees]
      · rw [List.map_cons, hdata, hdatas, List.map_cons]

theorem depth_le_of_mem {trees : List Asn1Tree} (h : tree ∈ trees) :
    tree.depth ≤ depthAll trees := by
  induction trees with
  | nil => cases h
  | cons head trees ih =>
    rw [depthAll]
    rcases List.mem_cons.1 h with rfl | h
    · exact Nat.le_max_left _ _
    · exact Nat.le_trans (ih h) (Nat.le_max_right _ _)

theorem encode_length_le_of_mem {trees : List Asn1Tree} (h : tree ∈ trees) :
    tree.encode.length ≤ (encodeAll trees).length := by
  induction trees with
  | nil => cases h
  | cons head trees ih =>
    rw [encodeAll, List.length_append]
    rcases List.mem_cons.1 h with rfl | h
    · exact Nat.le_add_right _ _
    · exact Nat.le_trans (ih h) (Nat.le_add_left _ _)

/-- A canonical tree is accepted where enough levels are left. -/
theorem parseNode_encode {tree : Asn1Tree} (hcanonical : tree.Canonical)
    (hdepth : tree.depth ≤ levels) (hlength : tree.encode.length < 2 ^ 24) :
    Accepts (parseNode levels) tree := by
  induction levels generalizing tree with
  | zero => cases tree <;> simp [depth] at hdepth
  | succ levels ih =>
    intro count reader rest hcount h
    cases tree with
    | primitive tagClass tagNumber content =>
      obtain ⟨htag, hform, hcontent⟩ := hcanonical
      rw [nodeCount] at hcount
      rw [encode, List.length_append] at hlength
      rw [encode, List.append_assoc] at h
      obtain ⟨identifier, bytes, hbytes, hclass, hconstructed, hread⟩ :=
        readHeader_header htag (by omega) (by simp) h
      have htake : reader.unread.take (reader.position + (header tagClass false tagNumber
          content.length).length + content.length - reader.position) =
          encode (.primitive tagClass tagNumber content) := by
        rw [h, ← List.append_assoc, encode, Nat.add_assoc, Nat.add_sub_cancel_left,
          ← List.length_append, List.take_left]
      refine ⟨.node (encode (.primitive tagClass tagNumber content))
        (header tagClass false tagNumber content.length).length tagNumber [], ?_, ?_, rfl⟩
      · rw [parseNode, if_neg (by omega), hread, ok_bind]
        dsimp only
        rw [hclass, hconstructed, hform, ok_bind, if_pos (by decide), List.take_left, hcontent,
          ok_bind, htake, Nat.add_sub_cancel_left, advance_append rfl, nodeCount, encode,
          List.length_append, Nat.add_assoc reader.position]
      · rw [Asn1Node.tree, encode, List.drop_left, hbytes, List.cons_append, List.headD_cons, hclass,
          hconstructed, if_neg (by decide)]
    | constructed tagClass tagNumber children =>
      obtain ⟨htag, hform, hordered, hchildren⟩ := hcanonical
      rw [CanonicalAll_iff] at hchildren
      rw [nodeCount] at hcount
      rw [depth] at hdepth
      rw [encode, List.length_append] at hlength
      rw [encode, List.append_assoc] at h
      obtain ⟨identifier, bytes, hbytes, hclass, hconstructed, hread⟩ :=
        readHeader_header htag (by omega) (by simp) h
      have htake : reader.unread.take (reader.position + (header tagClass true tagNumber
          (encodeAll children).length).length + (encodeAll children).length - reader.position) =
          encode (.constructed tagClass tagNumber children) := by
        rw [h, ← List.append_assoc, encode, Nat.add_assoc, Nat.add_sub_cancel_left,
          ← List.length_append, List.take_left]
      have haccepts : ∀ child ∈ children, Accepts (parseNode levels) child := fun child hchild =>
        ih (hchildren child hchild) (Nat.le_trans (depth_le_of_mem hchild) (by omega))
          (Nat.lt_of_le_of_lt (encode_length_le_of_mem hchild) (by omega))
      obtain ⟨nodes, hnodes, htrees, hdatas⟩ := parseChildren_encodeAll haccepts
        (count + 1) _ ⟨reader.position + (header tagClass true
          tagNumber (encodeAll children).length).length, encodeAll children ++ rest⟩ rest
        (by omega) (Nat.le_refl _) rfl
      refine ⟨.node (encode (.constructed tagClass tagNumber children))
        (header tagClass true tagNumber (encodeAll children).length).length tagNumber
        (nodes.map (·.1)), ?_, ?_, rfl⟩
      · rw [parseNode, if_neg (by omega), hread, ok_bind]
        dsimp only
        rw [hclass, hconstructed, hform, ok_bind, if_neg (by decide), hnodes, ok_bind]
        dsimp only
        rw [if_neg (not_not_intro rfl), htake, Nat.add_sub_cancel_left, nodeCount, encode,
          List.length_append, Nat.add_assoc reader.position, Nat.add_right_comm,
          Nat.add_assoc count]
        split
        next hset =>
          have horder := hordered hset
          rw [validateSetOrder_ok (by
            rw [hdatas, List.pairwise_map]
            exact horder.imp fun hbefore => by simpa [before] using hbefore)]
          rfl
        next => rfl
      · rw [Asn1Node.tree, htrees, encode, hbytes, List.cons_append, List.headD_cons, hclass,
          hconstructed, if_pos rfl]

/-- A canonical tree within the limits is accepted and read back. -/
theorem parseDocument_of_canonical {tree : Asn1Tree} (hcanonical : tree.Canonical)
    (hlength : tree.encode.length ≤ cMaximumLength) (hdepth : tree.depth ≤ cMaximumDepth)
    (hnodes : tree.nodeCount ≤ cMaximumNodes) :
    ∃ root, parseDocument tree.encode = .ok root ∧ root.tree = tree := by
  have hlt : tree.encode.length < 2 ^ 24 := Nat.lt_of_le_of_lt hlength (by decide)
  have hne : tree.encode ≠ [] := List.ne_nil_of_length_pos (encode_length_pos tree)
  obtain ⟨root, hroot, htree, -⟩ := parseNode_encode hcanonical hdepth hlt 0
    ⟨0, tree.encode⟩ [] (by omega) (List.append_nil _).symm
  refine ⟨root, ?_, htree⟩
  rw [parseDocument, if_neg (by omega), if_neg hne, hroot, ok_bind]
  rfl

end ErbslandCore.Cryptology.DerParser
