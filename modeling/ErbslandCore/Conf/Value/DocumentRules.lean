import Mathlib.Data.List.Nodup
import ErbslandCore.Conf.Value.DocumentBuilder

namespace ErbslandCore.Conf
open Library
set_option autoImplicit true

/-- What a container takes, by its type and whether its name is a text. -/
def Admits (type : ValueType) (text : Bool) (child : Value) : Prop :=
  (text = true → child.type.isMap = false) ∧
  match type with
  | .document => child.isText = false ∧ (child.type.isSectionOrList = true ∨ child.isMeta = true)
  | .intermediateSection => child.type.isSectionOrList = true ∧ child.nameType ≠ .text
  | .sectionWithNames => child.nameType ≠ .text
  | .sectionWithTexts => child.nameType ≠ .regular
  | .sectionList => child.type = .sectionWithNames ∨ child.type = .sectionWithTexts
  | _ => False

theorem Admits.congr (h : Admits type text child) (hname : child'.name = child.name)
    (htype : child'.type = child.type) : Admits type text child' := by
  simpa only [Admits, Value.isText, Value.isMeta, Value.nameType, hname, htype] using h

theorem Admits.isSectionOrList (h : Admits type text child) : type.isSectionOrList = true := by
  obtain ⟨_, h⟩ := h
  cases type <;> first | rfl | exact h.elim

/-- Only the kind of section of a child changes. -/
theorem Admits.retype (h : Admits type text child) (hname : child'.name = child.name)
    (hmap : child.type.isMap = true) (hmap' : child'.type.isMap = true)
    (hsections : child.type = .sectionWithNames → child'.type = .sectionWithTexts)
    (htexts : child.type ≠ .sectionWithTexts) : Admits type text child' := by
  obtain ⟨htext, h⟩ := h
  have hsection' : child'.type.isSectionOrList = true := by
    rw [ValueType.isSectionOrList, hmap', Bool.true_or]
  refine ⟨fun ht => ?_, ?_⟩
  · rw [htext ht] at hmap
    cases hmap
  · cases type with
    | document =>
      refine ⟨?_, .inl hsection'⟩
      simpa only [Value.isText, hname] using h.1
    | intermediateSection =>
      refine ⟨hsection', ?_⟩
      simpa only [Value.nameType, hname] using h.2
    | sectionWithNames => simpa only [Value.nameType, hname] using h
    | sectionWithTexts => simpa only [Value.nameType, hname] using h
    | sectionList =>
      rcases h with h | h
      · exact .inr (hsections h)
      · exact absurd h htexts
    | _ => exact h.elim

theorem ValueMap.valueMap_addValue (children : ValueMap) (name : Name) (id : ValueId)
    (name' : Name) : (children.addValue name id).valueMap name' =
      if name' = name then some id else children.valueMap name' :=
  Function.update_apply ..

theorem ValueType.ne_sectionList {type : ValueType} (h : type.isMap = true) :
    type ≠ .sectionList := by
  rintro rfl
  cases h

namespace DocumentBuilderStorage

def typeOf (s : DocumentBuilderStorage) : Container → ValueType
  | none => .document
  | some id => (s.values id).type

def isTextNamed (s : DocumentBuilderStorage) : Container → Bool
  | none => false
  | some id => (s.values id).isText

def nameOf (s : DocumentBuilderStorage) (id : ValueId) : Option Name := (s.values id).name

/-- The value is a section or a list of sections. -/
def IsSection (s : DocumentBuilderStorage) (id : ValueId) : Prop :=
  (s.values id).type.isSectionOrList = true

def listOf (s : DocumentBuilderStorage) (c : Container) : List ValueId := (s.children c).valueList

/-- The rules of a document, as far as each single change keeps them. -/
structure Rules (s : DocumentBuilderStorage) : Prop where
  admitted : ∀ c, ∀ id ∈ s.listOf c, Admits (s.typeOf c) (s.isTextNamed c) (s.values id)
  created : ∀ c, ∀ id ∈ s.listOf c, id < s.count
  ordered : ∀ id, ∀ child ∈ s.listOf (some id), id < child
  parent : ∀ c, ∀ id ∈ s.listOf c, (s.values id).parent = some c
  unused : ∀ id, s.count ≤ id → (s.values id).children = {}
  found : ∀ c name id, (s.children c).valueMap name = some id →
    id ∈ s.listOf c ∧ s.nameOf id = some name
  named : ∀ c, ∀ id ∈ s.listOf c, ∃ name, s.nameOf id = some name ∧
    ((s.children c).valueMap name).isSome
  unique : ∀ id, ((s.listOf (some id)).map s.nameOf).Nodup
  uniqueRoot : (s.listOf none).Pairwise fun a b =>
    s.nameOf a = s.nameOf b → ¬ s.IsSection a ∧ ¬ s.IsSection b
  elements : ∀ id, (s.values id).type = .sectionList → ∀ i (h : i < (s.listOf (some id)).length),
    s.nameOf (s.listOf (some id))[i] = some (.index i)

theorem rules_initial : Rules {} where
  admitted c id hmem := by cases c <;> cases hmem
  created c id hmem := by cases c <;> cases hmem
  ordered id child hmem := by cases hmem
  parent c id hmem := by cases c <;> cases hmem
  unused id _ := rfl
  found c name id h := by cases c <;> cases h
  named c id hmem := by cases c <;> cases hmem
  unique id := List.nodup_nil
  uniqueRoot := .nil
  elements id _ i h := by cases h

section
variable {s : DocumentBuilderStorage} {id : ValueId} {v : Value}

@[simp] theorem values_update (k : ValueId) :
    (s.update id v).values k = if k = id then v else s.values k :=
  Function.update_apply ..

@[simp] theorem count_update : (s.update id v).count = s.count := rfl

theorem children_update (c : Container) :
    (s.update id v).children c = if c = some id then v.children else s.children c := by
  cases c with
  | none => rfl
  | some k =>
    simp only [children, values_update, Option.some.injEq]
    split_ifs <;> rfl

/-- A change of the type of a section to one that its children allow. -/
structure Retypes (s : DocumentBuilderStorage) (id : ValueId) (v : Value) : Prop where
  name : v.name = (s.values id).name
  parent : v.parent = (s.values id).parent
  valueList : v.children.valueList = (s.values id).children.valueList
  valueMap : v.children.valueMap = (s.values id).children.valueMap
  created : id < s.count
  isMap : (s.values id).type.isMap = true
  isMap' : v.type.isMap = true
  sections : (s.values id).type = .sectionWithNames → v.type = .sectionWithTexts
  texts : (s.values id).type ≠ .sectionWithTexts
  children : ∀ child ∈ s.listOf (some id), Admits v.type v.isText (s.values child)

theorem Retypes.listOf (h : Retypes s id v) (c : Container) :
    (s.update id v).listOf c = s.listOf c := by
  rw [DocumentBuilderStorage.listOf, children_update]
  split_ifs with hc
  · subst hc
    exact h.valueList
  · rfl

theorem Retypes.nameOf (h : Retypes s id v) (k : ValueId) :
    (s.update id v).nameOf k = s.nameOf k := by
  rw [DocumentBuilderStorage.nameOf, values_update]
  split_ifs with hk
  · subst hk
    exact h.name
  · rfl

theorem Retypes.valueMap_update (h : Retypes s id v) (c : Container) :
    ((s.update id v).children c).valueMap = (s.children c).valueMap := by
  rw [children_update]
  split_ifs with hc
  · subst hc
    exact h.valueMap
  · rfl

theorem Retypes.isSection (h : Retypes s id v) (k : ValueId) :
    (s.update id v).IsSection k ↔ s.IsSection k := by
  rw [IsSection, values_update]
  split_ifs with hk
  · subst hk
    rw [IsSection, ValueType.isSectionOrList, ValueType.isSectionOrList, h.isMap, h.isMap',
      Bool.true_or, Bool.true_or]
  · rfl

theorem Retypes.sectionList (h : Retypes s id v) (k : ValueId) :
    ((s.update id v).values k).type = .sectionList ↔ (s.values k).type = .sectionList := by
  rw [values_update]
  split_ifs with hk
  · subst hk
    have hmap := h.isMap
    have hmap' := h.isMap'
    constructor
    · intro ht
      rw [ht] at hmap'
      cases hmap'
    · intro ht
      rw [ht] at hmap
      cases hmap
  · rfl

theorem typeOf_update {c : Container} (hc : c ≠ some id) :
    (s.update id v).typeOf c = s.typeOf c := by
  cases c with
  | none => rfl
  | some k =>
    have hk : k ≠ id := fun hk => hc (congrArg some hk)
    rw [typeOf, values_update, if_neg hk, typeOf]

theorem Retypes.isTextNamed (h : Retypes s id v) (c : Container) :
    (s.update id v).isTextNamed c = s.isTextNamed c := by
  cases c with
  | none => rfl
  | some k =>
    rw [DocumentBuilderStorage.isTextNamed, DocumentBuilderStorage.isTextNamed, values_update]
    split_ifs with hk
    · subst hk
      rw [Value.isText, h.name, Value.isText]
    · rfl

theorem Rules.retype (hs : Rules s) (h : Retypes s id v) : Rules (s.update id v) where
  admitted c child hmem := by
    rw [h.listOf] at hmem
    -- The container and the child can both be the section that changes, but not at once.
    have hchild : Admits ((s.update id v).typeOf c) (s.isTextNamed c) (s.values child) := by
      by_cases hc : c = some id
      · subst hc
        have := h.children child hmem
        rw [Value.isText, h.name] at this
        rw [typeOf, values_update, if_pos rfl]
        exact this
      · rw [typeOf_update hc]
        exact hs.admitted c child hmem
    rw [h.isTextNamed, values_update]
    split_ifs with hid
    · subst hid
      exact hchild.retype h.name h.isMap h.isMap' h.sections h.texts
    · exact hchild
  created c child hmem := by
    rw [h.listOf] at hmem
    exact hs.created c child hmem
  ordered k child hmem := by
    rw [h.listOf] at hmem
    exact hs.ordered k child hmem
  parent c child hmem := by
    rw [h.listOf] at hmem
    rw [values_update]
    split_ifs with hid
    · subst hid
      rw [h.parent]
      exact hs.parent c _ hmem
    · exact hs.parent c child hmem
  unused k hk := by
    have hne : k ≠ id := fun he => absurd h.created (Nat.not_lt.2 (he ▸ hk))
    rw [values_update, if_neg hne]
    exact hs.unused k hk
  found c name k hk := by
    rw [h.valueMap_update] at hk
    rw [h.listOf, h.nameOf]
    exact hs.found c name k hk
  named c child hmem := by
    rw [h.listOf] at hmem
    rw [h.nameOf, h.valueMap_update]
    exact hs.named c child hmem
  unique k := by
    rw [h.listOf, List.map_congr_left fun child _ => h.nameOf child]
    exact hs.unique k
  uniqueRoot := by
    rw [h.listOf]
    apply hs.uniqueRoot.imp
    intro a b hab
    rw [h.nameOf, h.nameOf, h.isSection, h.isSection]
    exact hab
  elements k hk i hi := by
    simp only [h.listOf] at hi ⊢
    rw [h.nameOf]
    exact hs.elements k ((h.sectionList k).1 hk) i hi

end

section
variable {s : DocumentBuilderStorage} {c : Container} {location : Location} {v : Value}

/-- The storage after a value was added to a container. -/
def withChild (s : DocumentBuilderStorage) (c : Container) (location : Location) (v : Value) :
    DocumentBuilderStorage := (s.insertChild c location v).2

/-- The value as it is added. -/
def childFor (s : DocumentBuilderStorage) (c : Container) (location : Location) (v : Value) :
    Value :=
  { v with name := some ((s.children c).newName v.name), parent := some c, location }

/-- The container is the document or one of the values. -/
def IsCreated (s : DocumentBuilderStorage) (c : Container) : Prop := ∀ id ∈ c, id < s.count

theorem insertChild_eq : s.insertChild c location v = (s.count, s.withChild c location v) := rfl

@[simp] theorem count_withChild : (s.withChild c location v).count = s.count + 1 := by
  cases c <;> rfl

theorem values_withChild (hc : s.IsCreated c) (id : ValueId) :
    (s.withChild c location v).values id =
      if id = s.count then s.childFor c location v
      else if c = some id then
        { s.values id with
          children := (s.children c).addValue ((s.children c).newName v.name) s.count }
      else s.values id := by
  cases c with
  | none =>
    exact values_update id
  | some p =>
    have hp : p ≠ s.count := Nat.ne_of_lt (hc p rfl)
    simp only [withChild, insertChild, setChildren, values_update, if_neg hp, Option.some.injEq]
    by_cases hid : id = p
    · subst hid
      rw [if_pos rfl, if_neg hp, if_pos rfl]
    · rw [if_neg hid, if_neg (Ne.symm hid)]
      rfl

theorem children_withChild (hc : s.IsCreated c) (c' : Container) :
    (s.withChild c location v).children c' =
      if c' = some s.count then v.children
      else if c' = c then (s.children c).addValue ((s.children c).newName v.name) s.count
      else s.children c' := by
  cases c' with
  | none =>
    cases c with
    | none => rfl
    | some p => rfl
  | some id =>
    rw [children, values_withChild hc]
    by_cases hid : id = s.count
    · rw [if_pos hid, if_pos (congrArg some hid)]
      rfl
    · rw [if_neg hid, if_neg fun h => hid (Option.some.inj h)]
      by_cases hc' : c = some id
      · rw [if_pos hc', if_pos hc'.symm]
      · rw [if_neg hc', if_neg (Ne.symm hc')]
        rfl

/-- A value that may be added to a container. -/
structure Adds (s : DocumentBuilderStorage) (c : Container) (v : Value) : Prop where
  container : s.IsCreated c
  children : v.children = {}
  admitted : ∀ location, Admits (s.typeOf c) (s.isTextNamed c) (s.childFor c location v)
  fresh : ∀ id ∈ s.listOf c, s.nameOf id = some ((s.children c).newName v.name) →
    c = none ∧ ¬ s.IsSection id ∧ v.type.isSectionOrList = false
  element : s.typeOf c = .sectionList → v.name = none

theorem Adds.children_eq (h : s.Adds c v) (hs : Rules s) (c' : Container) :
    (s.withChild c location v).children c' =
      if c' = c then (s.children c).addValue ((s.children c).newName v.name) s.count
      else s.children c' := by
  rw [children_withChild h.container]
  by_cases hc' : c' = some s.count
  · have hne : c' ≠ c := by
      rintro rfl
      exact absurd (h.container _ hc') (Nat.lt_irrefl _)
    rw [if_pos hc', if_neg hne, hc', h.children]
    exact (hs.unused s.count (Nat.le_refl _)).symm
  · rw [if_neg hc']

theorem Adds.listOf_eq (h : s.Adds c v) (hs : Rules s) (c' : Container) :
    (s.withChild c location v).listOf c' =
      if c' = c then s.listOf c ++ [s.count] else s.listOf c' := by
  rw [listOf, h.children_eq hs]
  split_ifs <;> rfl

theorem Adds.mem_listOf (h : s.Adds c v) (hs : Rules s) {id : ValueId} {c' : Container}
    (hmem : id ∈ (s.withChild c location v).listOf c') :
    (id ∈ s.listOf c' ∧ id ≠ s.count) ∨ (c' = c ∧ id = s.count) := by
  rw [h.listOf_eq hs] at hmem
  have hold : ∀ c', id ∈ s.listOf c' → id ≠ s.count := fun c' hid =>
    Nat.ne_of_lt (hs.created c' id hid)
  split_ifs at hmem with hc'
  · subst hc'
    rcases List.mem_append.1 hmem with hid | hid
    · exact .inl ⟨hid, hold _ hid⟩
    · exact .inr ⟨rfl, List.mem_singleton.1 hid⟩
  · exact .inl ⟨hmem, hold _ hmem⟩

theorem values_withChild_new (hc : s.IsCreated c) :
    (s.withChild c location v).values s.count = s.childFor c location v := by
  rw [values_withChild hc, if_pos rfl]

theorem nameOf_withChild (hc : s.IsCreated c) {id : ValueId} (hid : id ≠ s.count) :
    (s.withChild c location v).nameOf id = s.nameOf id := by
  rw [nameOf, values_withChild hc, if_neg hid]
  split_ifs <;> rfl

theorem nameOf_withChild_new (hc : s.IsCreated c) :
    (s.withChild c location v).nameOf s.count = some ((s.children c).newName v.name) := by
  rw [nameOf, values_withChild_new hc]
  rfl

theorem type_withChild (hc : s.IsCreated c) {id : ValueId} (hid : id ≠ s.count) :
    ((s.withChild c location v).values id).type = (s.values id).type := by
  rw [values_withChild hc, if_neg hid]
  split_ifs <;> rfl

theorem parent_withChild (hc : s.IsCreated c) {id : ValueId} (hid : id ≠ s.count) :
    ((s.withChild c location v).values id).parent = (s.values id).parent := by
  rw [values_withChild hc, if_neg hid]
  split_ifs <;> rfl

theorem isSection_withChild (hc : s.IsCreated c) {id : ValueId} (hid : id ≠ s.count) :
    (s.withChild c location v).IsSection id ↔ s.IsSection id := by
  rw [IsSection, type_withChild hc hid, IsSection]

theorem typeOf_withChild (hc : s.IsCreated c) {c' : Container} (hc' : c' ≠ some s.count) :
    (s.withChild c location v).typeOf c' = s.typeOf c' := by
  cases c' with
  | none => rfl
  | some id => exact type_withChild hc fun h => hc' (congrArg some h)

theorem isTextNamed_withChild (hc : s.IsCreated c) {c' : Container} (hc' : c' ≠ some s.count) :
    (s.withChild c location v).isTextNamed c' = s.isTextNamed c' := by
  cases c' with
  | none => rfl
  | some id =>
    have hname : (s.withChild c location v).nameOf id = s.nameOf id :=
      nameOf_withChild hc fun h => hc' (congrArg some h)
    rw [nameOf, nameOf] at hname
    rw [isTextNamed, isTextNamed, Value.isText, hname, Value.isText]

theorem Rules.not_new (hs : Rules s) {id : ValueId} (hmem : id ∈ s.listOf c') :
    c' ≠ some s.count := by
  rintro rfl
  rw [listOf, children, hs.unused s.count (Nat.le_refl _)] at hmem
  cases hmem

theorem Adds.nodup (h : s.Adds c v) (hs : Rules s) (id : ValueId) :
    (((s.withChild c location v).listOf (some id)).map (s.withChild c location v).nameOf).Nodup := by
  have hkept : ∀ c', (s.listOf c').map (s.withChild c location v).nameOf = (s.listOf c').map s.nameOf :=
    fun c' => List.map_congr_left fun k hk =>
      nameOf_withChild h.container (Nat.ne_of_lt (hs.created c' k hk))
  rw [h.listOf_eq hs]
  split_ifs with hc
  · subst hc
    rw [List.map_append, hkept, List.map_singleton, nameOf_withChild_new h.container]
    apply List.Nodup.append (hs.unique id) (List.nodup_singleton _)
    intro name hname hnew
    obtain ⟨k, hk, hkname⟩ := List.mem_map.1 hname
    have := (h.fresh k hk (hkname.trans (List.mem_singleton.1 hnew))).1
    cases this
  · rw [hkept]
    exact hs.unique id

theorem Adds.uniqueRoot (h : s.Adds c v) (hs : Rules s) :
    ((s.withChild c location v).listOf none).Pairwise fun a b =>
      (s.withChild c location v).nameOf a = (s.withChild c location v).nameOf b →
        ¬ (s.withChild c location v).IsSection a ∧ ¬ (s.withChild c location v).IsSection b := by
  have hold : (s.listOf none).Pairwise fun a b =>
      (s.withChild c location v).nameOf a = (s.withChild c location v).nameOf b →
        ¬ (s.withChild c location v).IsSection a ∧ ¬ (s.withChild c location v).IsSection b := by
    apply hs.uniqueRoot.imp_of_mem
    intro a b ha hb hab
    have hna := Nat.ne_of_lt (hs.created none a ha)
    have hnb := Nat.ne_of_lt (hs.created none b hb)
    rw [nameOf_withChild h.container hna, nameOf_withChild h.container hnb,
      isSection_withChild h.container hna, isSection_withChild h.container hnb]
    exact hab
  rw [h.listOf_eq hs]
  split_ifs with hc
  · subst hc
    rw [List.pairwise_append]
    refine ⟨hold, List.pairwise_singleton _ _, fun a ha b hb hname => ?_⟩
    obtain rfl := List.mem_singleton.1 hb
    have hna := Nat.ne_of_lt (hs.created none a ha)
    rw [nameOf_withChild h.container hna, nameOf_withChild_new h.container] at hname
    obtain ⟨_, hsection, hnew⟩ := h.fresh a ha hname
    rw [isSection_withChild h.container hna]
    refine ⟨hsection, fun hchild => ?_⟩
    rw [IsSection, values_withChild_new h.container] at hchild
    exact absurd (hnew.symm.trans hchild) (by decide)
  · exact hold

theorem Adds.elements (h : s.Adds c v) (hs : Rules s) (id : ValueId)
    (hid : ((s.withChild c location v).values id).type = .sectionList) (i : Nat)
    (hi : i < ((s.withChild c location v).listOf (some id)).length) :
    (s.withChild c location v).nameOf ((s.withChild c location v).listOf (some id))[i] =
      some (.index i) := by
  by_cases hnew : id = s.count
  · have hne : some id ≠ c := by
      rintro rfl
      exact absurd (h.container _ rfl) (hnew ▸ Nat.lt_irrefl _)
    have hlist : s.listOf (some id) = [] := by
      rw [hnew]
      exact congrArg ValueMap.valueList (hs.unused s.count (Nat.le_refl _))
    rw [h.listOf_eq hs, if_neg hne, hlist] at hi
    cases hi
  · rw [type_withChild h.container hnew] at hid
    have hold := hs.elements id hid
    simp only [h.listOf_eq hs] at hi ⊢
    split_ifs at hi ⊢ with hc
    · subst hc
      by_cases hlt : i < (s.listOf (some id)).length
      · rw [List.getElem_append_left hlt, nameOf_withChild h.container
          (Nat.ne_of_lt (hs.created _ _ (List.getElem_mem hlt)))]
        exact hold i hlt
      · rw [List.length_append, List.length_singleton] at hi
        obtain rfl : i = (s.listOf (some id)).length := by omega
        rw [List.getElem_concat_length rfl, nameOf_withChild_new h.container, h.element hid]
        rfl
    · rw [nameOf_withChild h.container (Nat.ne_of_lt (hs.created _ _ (List.getElem_mem hi)))]
      exact hold i hi

theorem Rules.withChild (hs : Rules s) (h : s.Adds c v) : Rules (s.withChild c location v) where
  admitted c' id hmem := by
    rcases h.mem_listOf hs hmem with ⟨hold, hid⟩ | ⟨rfl, rfl⟩
    · have hc' := hs.not_new hold
      rw [typeOf_withChild h.container hc', isTextNamed_withChild h.container hc']
      exact (hs.admitted c' id hold).congr (nameOf_withChild h.container hid)
        (type_withChild h.container hid)
    · have hc' : c' ≠ some s.count := fun he => absurd (h.container _ he) (Nat.lt_irrefl _)
      rw [typeOf_withChild h.container hc', isTextNamed_withChild h.container hc',
        values_withChild_new h.container]
      exact h.admitted location
  created c' id hmem := by
    rw [count_withChild]
    rcases h.mem_listOf hs hmem with ⟨hold, _⟩ | ⟨rfl, rfl⟩
    · exact Nat.lt_succ_of_lt (hs.created c' id hold)
    · exact Nat.lt_succ_self _
  ordered id child hmem := by
    rcases h.mem_listOf hs hmem with ⟨hold, _⟩ | ⟨rfl, rfl⟩
    · exact hs.ordered id child hold
    · exact h.container id rfl
  parent c' id hmem := by
    rcases h.mem_listOf hs hmem with ⟨hold, hid⟩ | ⟨rfl, rfl⟩
    · rw [parent_withChild h.container hid]
      exact hs.parent c' id hold
    · rw [values_withChild_new h.container]
      rfl
  unused id hid := by
    rw [count_withChild] at hid
    have hne : some id ≠ c := by
      rintro rfl
      exact absurd (h.container _ rfl) (Nat.not_lt.2 (Nat.le_of_succ_le hid))
    have hkept : (s.withChild c location v).children (some id) = _ := h.children_eq hs (some id)
    rw [if_neg hne] at hkept
    exact hkept.trans (hs.unused id (Nat.le_of_succ_le hid))
  found c' name id hfound := by
    rw [h.children_eq hs] at hfound
    rw [h.listOf_eq hs]
    have hold : ∀ c'', (s.children c'').valueMap name = some id →
        id ∈ s.listOf c'' ∧ (s.withChild c location v).nameOf id = some name := by
      intro c'' hk
      obtain ⟨hmem, hname⟩ := hs.found c'' name id hk
      rw [nameOf_withChild h.container (Nat.ne_of_lt (hs.created c'' id hmem))]
      exact ⟨hmem, hname⟩
    split_ifs at hfound ⊢ with hc
    · rw [ValueMap.valueMap_addValue] at hfound
      split_ifs at hfound with hname
      · cases hfound
        subst hname
        exact ⟨List.mem_append_right _ List.mem_cons_self, nameOf_withChild_new h.container⟩
      · exact ⟨List.mem_append_left _ (hold c hfound).1, (hold c hfound).2⟩
    · exact hold c' hfound
  named c' id hmem := by
    rw [h.children_eq hs]
    rcases h.mem_listOf hs hmem with ⟨hold, hid⟩ | ⟨rfl, rfl⟩
    · obtain ⟨name, hname, hfound⟩ := hs.named c' id hold
      rw [nameOf_withChild h.container hid]
      refine ⟨name, hname, ?_⟩
      split_ifs with hc
      · subst hc
        rw [ValueMap.valueMap_addValue]
        split_ifs
        · rfl
        · exact hfound
      · exact hfound
    · refine ⟨_, nameOf_withChild_new h.container, ?_⟩
      rw [if_pos rfl, ValueMap.valueMap_addValue, if_pos rfl]
      rfl
  unique id := h.nodup hs id
  uniqueRoot := h.uniqueRoot hs
  elements id hid i hi := h.elements hs id hid i hi

end

end DocumentBuilderStorage
end ErbslandCore.Conf
