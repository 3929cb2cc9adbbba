import ErbslandCore.Conf.Value.DocumentRules

namespace ErbslandCore.Conf.DocumentBuilderStorage
open Library
set_option autoImplicit true

/-- Values are only added; a value keeps its name and its kind. -/
structure Grows (s s' : DocumentBuilderStorage) : Prop where
  count : s.count ≤ s'.count
  listOf : ∀ c, s.listOf c <+: s'.listOf c
  nameOf : ∀ id < s.count, s'.nameOf id = s.nameOf id
  isMap : ∀ id < s.count, (s'.values id).type.isMap = (s.values id).type.isMap
  sectionList : ∀ id < s.count,
    (s'.values id).type = .sectionList ↔ (s.values id).type = .sectionList
  type : ∀ id < s.count, (s.values id).type.isMap = false →
    (s'.values id).type = (s.values id).type

/-- The section lists get no further elements. -/
def KeepsLists (s s' : DocumentBuilderStorage) : Prop :=
  ∀ id < s.count, (s.values id).type = .sectionList → s'.listOf (some id) = s.listOf (some id)

/-- The last section stays the same. -/
structure KeepsLast (s s' : DocumentBuilderStorage) : Prop where
  namePath : s'.lastSectionNamePath = s.lastSectionNamePath
  value : s'.lastSectionValue = s.lastSectionValue

section
variable {s s' s'' : DocumentBuilderStorage} {id : ValueId}

theorem Grows.refl (s : DocumentBuilderStorage) : s.Grows s where
  count := Nat.le_refl _
  listOf _ := List.prefix_refl _
  nameOf _ _ := rfl
  isMap _ _ := rfl
  sectionList _ _ := Iff.rfl
  type _ _ _ := rfl

theorem Grows.trans (h : s.Grows s') (h' : s'.Grows s'') : s.Grows s'' where
  count := Nat.le_trans h.count h'.count
  listOf c := (h.listOf c).trans (h'.listOf c)
  nameOf id hid := (h'.nameOf id (Nat.lt_of_lt_of_le hid h.count)).trans (h.nameOf id hid)
  isMap id hid := (h'.isMap id (Nat.lt_of_lt_of_le hid h.count)).trans (h.isMap id hid)
  sectionList id hid :=
    (h'.sectionList id (Nat.lt_of_lt_of_le hid h.count)).trans (h.sectionList id hid)
  type id hid hmap :=
    (h'.type id (Nat.lt_of_lt_of_le hid h.count) ((h.isMap id hid).trans hmap)).trans
      (h.type id hid hmap)

theorem Grows.isSection (h : s.Grows s') {id : ValueId} (hid : id < s.count) :
    s'.IsSection id ↔ s.IsSection id := by
  rw [IsSection, ValueType.isSectionOrList, h.isMap id hid, Bool.or_eq_true, decide_eq_true_iff,
    h.sectionList id hid, IsSection, ValueType.isSectionOrList, Bool.or_eq_true, decide_eq_true_iff]

theorem Grows.isCreated (h : s.Grows s') (hc : s.IsCreated c) : s'.IsCreated c :=
  fun id hid => Nat.lt_of_lt_of_le (hc id hid) h.count

theorem KeepsLists.refl (s : DocumentBuilderStorage) : s.KeepsLists s := fun _ _ _ => rfl

theorem KeepsLists.trans (h : s.KeepsLists s') (hg : s.Grows s') (h' : s'.KeepsLists s'') :
    s.KeepsLists s'' := fun id hid hlist =>
  (h' id (Nat.lt_of_lt_of_le hid hg.count) ((hg.sectionList id hid).2 hlist)).trans (h id hid hlist)

theorem KeepsLast.refl (s : DocumentBuilderStorage) : s.KeepsLast s := ⟨rfl, rfl⟩

theorem KeepsLast.trans (h : s.KeepsLast s') (h' : s'.KeepsLast s'') : s.KeepsLast s'' :=
  ⟨h'.namePath.trans h.namePath, h'.value.trans h.value⟩

theorem Retypes.grows (h : s.Retypes id v) : s.Grows (s.update id v) where
  count := Nat.le_refl _
  listOf c := (h.listOf c).symm ▸ List.prefix_refl (s.listOf c)
  nameOf k _ := h.nameOf k
  isMap k _ := by
    rw [values_update]
    split_ifs with hk
    · subst hk
      rw [h.isMap, h.isMap']
    · rfl
  sectionList k _ := h.sectionList k
  type k _ hmap := by
    rw [values_update, if_neg]
    rintro rfl
    rw [h.isMap] at hmap
    cases hmap

theorem Retypes.keepsLists (h : s.Retypes id v) : s.KeepsLists (s.update id v) :=
  fun _ _ _ => h.listOf _

theorem keepsLast_update : s.KeepsLast (s.update id v) := ⟨rfl, rfl⟩

theorem Adds.grows (h : s.Adds c v) (hs : Rules s) : s.Grows (s.withChild c location v) where
  count := by
    rw [count_withChild]
    exact Nat.le_succ _
  listOf c' := by
    rw [h.listOf_eq hs]
    split_ifs with hc
    · subst hc
      exact List.prefix_append _ _
    · exact List.prefix_refl _
  nameOf id hid := nameOf_withChild h.container (Nat.ne_of_lt hid)
  isMap id hid := by rw [type_withChild h.container (Nat.ne_of_lt hid)]
  sectionList id hid := by rw [type_withChild h.container (Nat.ne_of_lt hid)]
  type id hid _ := type_withChild h.container (Nat.ne_of_lt hid)

theorem Adds.keepsLists (h : s.Adds c v) (hs : Rules s) (hc : s.typeOf c ≠ .sectionList) :
    s.KeepsLists (s.withChild c location v) := by
  intro id _ hlist
  rw [h.listOf_eq hs, if_neg]
  rintro rfl
  exact hc hlist

theorem keepsLast_withChild : s.KeepsLast (s.withChild c location v) := by
  cases c <;> exact ⟨rfl, rfl⟩

end

section
variable {s s' : DocumentBuilderStorage} {c : Container} {namePath : NamePath}
  {location : Location} {v : Value} {id : ValueId}

theorem isText_iff : v.isText = true ↔ v.nameType = .text := by
  rw [Value.isText, Value.nameType]
  cases v.name with
  | none => constructor <;> rintro ⟨⟩
  | some name => simp only [Option.any_some, Name.isText, decide_eq_true_iff, Option.map_some,
      Option.getD_some]

/-- A container before a value is added: it may have become a section with texts. -/
structure Prepares (s : DocumentBuilderStorage) (c : Container) (v : Value)
    (s' : DocumentBuilderStorage) : Prop where
  rules : Rules s'
  grows : s.Grows s'
  keepsLists : s.KeepsLists s'
  keepsLast : s.KeepsLast s'
  listOf : ∀ c', s'.listOf c' = s.listOf c'
  valueMap : ∀ c', (s'.children c').valueMap = (s.children c').valueMap
  count : s'.count = s.count
  isTextNamed : s'.isTextNamed c = s.isTextNamed c
  admitted : Admits (s'.typeOf c) (s'.isTextNamed c) v

theorem Prepares.refl (hs : Rules s) (h : Admits (s.typeOf c) (s.isTextNamed c) v) :
    s.Prepares c v s :=
  ⟨hs, .refl s, .refl s, .refl s, fun _ => rfl, fun _ => rfl, rfl, rfl, h⟩

theorem Prepares.retype (hs : Rules s) (h : s.Retypes id w)
    (hv : Admits w.type (s.isTextNamed (some id)) v) : s.Prepares (some id) v (s.update id w) where
  rules := hs.retype h
  grows := h.grows
  keepsLists := h.keepsLists
  keepsLast := keepsLast_update
  listOf := h.listOf
  valueMap := h.valueMap_update
  count := rfl
  isTextNamed := h.isTextNamed _
  admitted := by
    rw [h.isTextNamed, typeOf, values_update, if_pos rfl]
    exact hv

theorem retypes_texts {location : Location} (hid : id < s.count)
    (htype : (s.values id).type = .intermediateSection ∨ (s.values id).type = .sectionWithNames)
    (hempty : (s.values id).children.empty = true) :
    s.Retypes id { (s.values id).transformed .sectionWithTexts with location } where
  name := rfl
  parent := rfl
  valueList := rfl
  valueMap := rfl
  created := hid
  isMap := by rcases htype with h | h <;> rw [h] <;> rfl
  isMap' := rfl
  sections _ := rfl
  texts := by rcases htype with h | h <;> rw [h] <;> decide
  children child hmem := by
    rw [listOf, children, List.isEmpty_iff.1 hempty] at hmem
    cases hmem

theorem transform_texts
    (htype : (s.values id).type = .intermediateSection ∨ (s.values id).type = .sectionWithNames) :
    s.transform id .sectionWithTexts =
      .ok (s.update id ((s.values id).transformed .sectionWithTexts)) := by
  rw [transform, Value.transform]
  rcases htype with h | h <;> rw [h] <;> rfl

theorem update_update (id : ValueId) (v w : Value) : (s.update id v).update id w = s.update id w := by
  simp only [update, Function.update_idem]

theorem setLocation_update (id : ValueId) (v : Value) (location : Location) :
    (s.update id v).setLocation id location = s.update id { v with location } := by
  rw [setLocation, values_update, if_pos rfl, update_update]

theorem admits_texts (hmap : text = true → v.type.isMap = false) (hname : v.nameType = .text) :
    Admits .sectionWithTexts text v := by
  refine ⟨hmap, ?_⟩
  rw [hname]
  exact nofun

theorem applyContainerRules_prepares (hs : Rules s) (hid : id < s.count)
    (h : s.applyContainerRules id namePath location v = .ok s') : s.Prepares (some id) v s' := by
  rw [applyContainerRules] at h
  by_cases htext : ((s.values id).isText && v.type.isMap) = true
  · rw [if_pos htext] at h
    cases h
  rw [if_neg htext] at h
  have hmap : s.isTextNamed (some id) = true → v.type.isMap = false := by
    intro hcontainer
    rw [Bool.and_eq_true, not_and, Bool.not_eq_true] at htext
    exact htext hcontainer
  have hadmits : Admits (s.values id).type (s.isTextNamed (some id)) v →
      s.Prepares (some id) v s := fun hv => .refl hs hv
  cases htype : (s.values id).type with
  | intermediateSection =>
    simp only [htype] at h hadmits
    split_ifs at h with hsection hname hempty
    · rw [transform_texts (.inl htype), ok_bind, setLocation_update] at h
      cases h
      have hempty' : (s.values id).children.empty = true := by simpa using hempty
      exact .retype hs (retypes_texts hid (.inl htype) hempty')
        (admits_texts hmap (isText_iff.1 hname))
    · cases h
      refine hadmits ⟨hmap, by simpa using hsection, fun hn => hname (isText_iff.2 hn)⟩
  | sectionWithNames =>
    simp only [htype] at h hadmits
    split_ifs at h with hname hempty
    · rw [transform_texts (.inr htype)] at h
      cases h
      exact .retype hs (retypes_texts hid (.inr htype) hempty) (admits_texts hmap hname)
    · cases h
      exact hadmits ⟨hmap, hname⟩
  | sectionWithTexts =>
    simp only [htype] at h hadmits
    split_ifs at h with hname
    cases h
    exact hadmits ⟨hmap, hname⟩
  | sectionList =>
    simp only [htype] at h hadmits
    split_ifs at h with hsection
    cases h
    exact hadmits ⟨hmap, .inl (not_not.1 hsection)⟩
  | _ =>
    rw [htype] at h
    cases h

/-- A value was added to a container as its last child. -/
structure Added (s : DocumentBuilderStorage) (c : Container) (v : Value) (id : ValueId)
    (s' : DocumentBuilderStorage) : Prop where
  rules : Rules s'
  grows : s.Grows s'
  keepsLast : s.KeepsLast s'
  keepsLists : s.typeOf c ≠ .sectionList → s.KeepsLists s'
  isNew : id = s.count
  count : s'.count = s.count + 1
  listOf : s'.listOf c = s.listOf c ++ [id]
  others : ∀ c', c' ≠ c → s'.listOf c' = s.listOf c'
  nameOf : s'.nameOf id = some ((s.children c).newName v.name)
  type : (s'.values id).type = v.type
  isEmpty : s'.listOf (some id) = []

theorem applyRootRules_admits (h : applyRootRules namePath location v = .ok ()) :
    Admits .document false v := by
  rw [applyRootRules] at h
  split_ifs at h with hsection htext
  refine ⟨nofun, by simpa using htext, ?_⟩
  by_cases hv : v.type.isSectionOrList = true
  · exact .inl hv
  · right
    simpa [hv] using hsection

theorem Prepares.typeOf_sectionList (h : s.Prepares c v s') (hc : s.IsCreated c) :
    s'.typeOf c = .sectionList ↔ s.typeOf c = .sectionList := by
  cases c with
  | none => exact Iff.rfl
  | some id => exact h.grows.sectionList id (hc id rfl)

theorem Prepares.adds (h : s.Prepares c v s') (hc : s.IsCreated c) (hv : v.children = {})
    (hfresh : ∀ id ∈ s.listOf c, s.nameOf id = some ((s.children c).newName v.name) →
      c = none ∧ ¬ s.IsSection id ∧ v.type.isSectionOrList = false)
    (helement : s.typeOf c = .sectionList ↔ v.name = none) (hs : Rules s) : s'.Adds c v where
  container := h.grows.isCreated hc
  children := hv
  admitted location := by
    cases hname : v.name with
    | none =>
      have htype := (h.typeOf_sectionList hc).2 (helement.2 hname)
      have hadmits := h.admitted
      rw [htype] at hadmits ⊢
      exact hadmits
    | some name =>
      have hchild : (s'.childFor c location v).name = v.name := by
        rw [childFor, hname]
        rfl
      exact h.admitted.congr hchild rfl
  fresh id hmem hname := by
    have hsize : (s'.children c).size = (s.children c).size := congrArg List.length (h.listOf c)
    rw [h.listOf] at hmem
    have hid := hs.created c id hmem
    rw [h.grows.nameOf id hid, ValueMap.newName, hsize] at hname
    rw [h.grows.isSection hid]
    exact hfresh id hmem hname
  element htype := helement.1 ((h.typeOf_sectionList hc).1 htype)

theorem Prepares.added (h : s.Prepares c v s') (hadds : s'.Adds c v) (hs : Rules s)
    (hc : s.IsCreated c) : s.Added c v s.count (s'.withChild c location v) where
  rules := h.rules.withChild hadds
  grows := h.grows.trans (hadds.grows h.rules)
  keepsLast := h.keepsLast.trans keepsLast_withChild
  keepsLists hlist := h.keepsLists.trans h.grows
    (hadds.keepsLists h.rules fun htype => hlist ((h.typeOf_sectionList hc).1 htype))
  isNew := rfl
  count := by rw [count_withChild, h.count]
  listOf := by rw [hadds.listOf_eq h.rules, if_pos rfl, h.listOf, h.count]
  others c' hc' := by rw [hadds.listOf_eq h.rules, if_neg hc', h.listOf]
  nameOf := by
    have hsize : (s'.children c).size = (s.children c).size := congrArg List.length (h.listOf c)
    rw [← h.count, nameOf_withChild_new hadds.container, ValueMap.newName, hsize, ValueMap.newName]
  type := by
    rw [← h.count, values_withChild_new hadds.container]
    rfl
  isEmpty := by
    have hne : some s.count ≠ c := by
      rintro rfl
      exact absurd (hc _ rfl) (Nat.lt_irrefl _)
    rw [hadds.listOf_eq h.rules, if_neg hne, h.listOf]
    exact congrArg ValueMap.valueList (hs.unused s.count (Nat.le_refl _))

theorem addChildValue_added (hs : Rules s) (hc : s.IsCreated c) (hv : v.children = {})
    (hfresh : ∀ id ∈ s.listOf c, s.nameOf id = some ((s.children c).newName v.name) →
      c = none ∧ ¬ s.IsSection id ∧ v.type.isSectionOrList = false)
    (helement : s.typeOf c = .sectionList ↔ v.name = none)
    (h : s.addChildValue c namePath location v = .ok (id, s')) : s.Added c v id s' := by
  have hprepared : ∃ s₁, s.Prepares c v s₁ ∧ (id, s') = s₁.insertChild c location v := by
    cases c with
    | none =>
      rw [addChildValue] at h
      split_ifs at h
      obtain ⟨_, hroot, h⟩ := bind_eq_ok h
      cases h
      exact ⟨s, .refl hs (applyRootRules_admits hroot), rfl⟩
    | some p =>
      rw [addChildValue] at h
      split_ifs at h
      obtain ⟨s₁, hrules, h⟩ := bind_eq_ok h
      cases h
      exact ⟨s₁, applyContainerRules_prepares hs (hc p rfl) hrules, rfl⟩
  obtain ⟨s₁, hs₁, heq⟩ := hprepared
  rw [insertChild_eq, hs₁.count] at heq
  cases heq
  exact hs₁.added (hs₁.adds hc hv hfresh helement hs) hs hc

end

end ErbslandCore.Conf.DocumentBuilderStorage
