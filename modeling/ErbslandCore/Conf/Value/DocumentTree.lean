import ErbslandCore.Conf.Value.DocumentPaths

namespace ErbslandCore.Conf.DocumentBuilderStorage
open Library
set_option autoImplicit true

/-- The document between two calls, with the path of the last section. -/
structure DocumentTree (s : DocumentBuilderStorage) : Prop where
  rules : Rules s
  hasElements : s.HasElements
  atStart : s.lastSectionValue = none →
    s.lastSectionNamePath = [] ∧ ∀ id ∈ s.listOf none, ¬ s.IsSection id
  atSection : ∀ id, s.lastSectionValue = some id →
    s.Resolves none s.lastSectionNamePath (some id)
  plain : IsPlain s.lastSectionNamePath

theorem documentTree_initial : DocumentTree {} where
  rules := rules_initial
  hasElements id hid _ := absurd hid (Nat.not_lt_zero id)
  atStart _ := ⟨rfl, nofun⟩
  atSection _ h := by cases h
  plain := nofun

section
variable {s s' : DocumentBuilderStorage} {c : Container} {id : ValueId} {namePath : NamePath}
  {location : Location} {back : Name} {parent : Container}

/-- The last section changes and nothing else. -/
def withLast (s : DocumentBuilderStorage) (id : ValueId) (namePath : NamePath) :
    DocumentBuilderStorage :=
  { s with
    lastSectionValue := some id
    lastSectionNamePath := namePath }

theorem Rules.withLast (h : Rules s) : Rules (s.withLast id namePath) :=
  ⟨h.admitted, h.created, h.ordered, h.parent, h.unused, h.found, h.named, h.unique, h.uniqueRoot,
    h.elements⟩

theorem grows_withLast : s.Grows (s.withLast id namePath) :=
  ⟨Nat.le_refl _, fun _ => List.prefix_refl _, fun _ _ => rfl, fun _ _ => rfl, fun _ _ => Iff.rfl,
    fun _ _ _ => rfl⟩

theorem updateLastSection_eq (h : s.updateLastSection id namePath = .ok s') :
    s' = s.withLast id namePath := by
  rw [updateLastSection] at h
  split_ifs at h
  exact (Except.ok.inj h).symm

theorem documentTree_withLast (hs : Rules s) (helements : s.HasElements)
    (hresolves : s.Resolves none namePath (some id)) (hplain : IsPlain namePath) :
    DocumentTree (s.withLast id namePath) where
  rules := hs.withLast
  hasElements := helements
  atStart h := by cases h
  atSection k h := by
    cases h
    exact hresolves.grows hs hs.withLast grows_withLast hplain fun _ _ _ _ _ _ => rfl
  plain := hplain

theorem isPlain_of_containsIndex (h : ¬ namePath.containsIndex = true) : IsPlain namePath :=
  fun _ hname => (NamePath.not_containsIndex (Bool.not_eq_true _ ▸ h) hname).2

theorem isPlain_dropLast (h : IsPlain namePath) : IsPlain namePath.dropLast :=
  fun name hname => h name (List.dropLast_subset _ hname)

theorem resolveForSection_opens {value : Option ValueId} (hs : Rules s) (hplain : IsPlain namePath)
    (h : s.resolveForSection namePath back location = .ok ((parent, value), s')) :
    s.Opens s' ∧ s'.Resolves none namePath.dropLast parent ∧ s'.IsCreated parent ∧
      (s'.typeOf parent).isMap = true ∧ s'.getChildValue parent back = value := by
  obtain ⟨⟨parent', s₁⟩, hparents, h⟩ := bind_eq_ok h
  cases h
  obtain ⟨hopens, hresolves, hcreated, hmap⟩ :=
    resolveParents_opens hs (fun _ h => absurd h (Option.not_mem_none _)) rfl (isPlain_dropLast hplain) hparents
  exact ⟨hopens, hresolves, hcreated, hmap, rfl⟩

/-- The way to a section ends with its own name. -/
theorem resolves_back (hback : namePath.getLast? = some back)
    (hparent : s.Resolves none namePath.dropLast parent)
    (hchild : s.getChildValue parent back = some id) (henter : s.Enters id target) :
    s.Resolves none namePath (some target) := by
  have hpath := hparent.append (.step hchild henter .here)
  rwa [List.dropLast_append_getLast? back hback] at hpath

theorem retypes_names (location : Location) (hid : id < s.count) (hs : Rules s)
    (htype : (s.values id).type = .intermediateSection) :
    s.Retypes id { (s.values id).transformed .sectionWithNames with location } where
  name := rfl
  parent := rfl
  valueList := rfl
  valueMap := rfl
  created := hid
  isMap := by
    rw [htype]
    rfl
  isMap' := rfl
  sections h := by
    rw [htype] at h
    cases h
  texts := by
    rw [htype]
    exact nofun
  children child hmem := by
    have hadmits := hs.admitted _ child hmem
    rw [typeOf, htype] at hadmits
    exact ⟨hadmits.1, hadmits.2.2⟩

theorem transform_names (htype : (s.values id).type = .intermediateSection) :
    s.transform id .sectionWithNames =
      .ok (s.update id ((s.values id).transformed .sectionWithNames)) := by
  rw [transform, Value.transform, htype]
  rfl

theorem addSectionMap_tree (hs : DocumentTree s) (h : s.addSectionMap namePath location = .ok s') :
    DocumentTree s' ∧ s.Grows s' := by
  rw [addSectionMap] at h
  cases hback : namePath.getLast? with
  | none =>
    rw [hback] at h
    cases h
  | some back =>
    rw [hback] at h
    simp only at h
    split_ifs at h with hindex
    have hplain := isPlain_of_containsIndex hindex
    have hname := hplain back (List.mem_of_getLast? hback)
    obtain ⟨⟨⟨parent, value⟩, s₁⟩, hresolve, h⟩ := bind_eq_ok h
    obtain ⟨hopens, hparent, hcreated, hmap, hvalue⟩ :=
      resolveForSection_opens hs.rules hplain hresolve
    -- Both branches leave a section under the name, which becomes the last one.
    have hfinish : ∀ id s₂, s₁.Opens s₂ → s₂.getChildValue parent back = some id →
        (s₂.values id).type.isMap = true → s₂.updateLastSection id namePath = .ok s' →
        DocumentTree s' ∧ s.Grows s' := by
      intro id s₂ hopens' hchild hid hupdate
      obtain rfl := updateLastSection_eq hupdate
      have hresolves := hopens'.resolves hopens.rules hparent (isPlain_dropLast hplain)
      refine ⟨documentTree_withLast hopens'.rules (hopens'.hasElements (hopens.hasElements
        hs.hasElements)) (resolves_back hback hresolves hchild (.inr ⟨hid, rfl⟩)) hplain, ?_⟩
      exact (hopens.grows.trans hopens'.grows).trans grows_withLast
    cases value with
    | some id =>
      simp only at h
      split_ifs at h with htype
      rw [transform_names (not_not.1 htype), ok_bind, setLocation_update] at h
      obtain ⟨hmem, hidName⟩ := hopens.rules.of_getChildValue hname hvalue
      have hretypes := retypes_names location
        (hopens.rules.created _ _ hmem) hopens.rules (not_not.1 htype)
      have hsection : s₁.IsSection id := by
        rw [IsSection, not_not.1 htype]
        rfl
      apply hfinish id _ (hretypes.opens hopens.rules) _ _ h
      · exact hopens.rules.getChildValue_grows (hopens.rules.retype hretypes) hretypes.grows hname
          hvalue hsection
      · rw [values_update, if_pos rfl]
        rfl
    | none =>
      obtain ⟨⟨id, s₂⟩, hadd, h⟩ := bind_eq_ok h
      rw [getChildValue_eq hname] at hvalue
      have hadded := addChildValue_added hopens.rules hcreated rfl
        (fun k hk hkname => absurd hkname (hopens.rules.ne_of_valueMap hvalue hk))
        ⟨fun hlist => absurd hlist (ValueType.ne_sectionList hmap),
          fun h => absurd h (Option.some_ne_none _)⟩ hadd
      apply hfinish id s₂ (hadded.opens hmap (by rintro ⟨⟩)) (hadded.getChildValue rfl hname rfl) _ h
      rw [hadded.type]
      rfl

/-- A section list gets another element, which becomes the last section. -/
theorem addElement_tree {list : ValueId} (hs : Rules s) (hplain : IsPlain namePath)
    (hback : namePath.getLast? = some back)
    (hparent : s.Resolves none namePath.dropLast parent)
    (hchild : s.getChildValue parent back = some list)
    (hlist : (s.values list).type = .sectionList)
    (helements : ∀ id < s.count, (s.values id).type = .sectionList → id ≠ list →
      s.listOf (some id) ≠ [])
    (hadd : s.addChildValue (some list) namePath location { type := .sectionWithNames } =
      .ok (id, s₁)) (hupdate : s₁.updateLastSection id namePath = .ok s') :
    DocumentTree s' ∧ s.Grows s' := by
  have hname := hplain back (List.mem_of_getLast? hback)
  obtain ⟨hmem, _⟩ := hs.of_getChildValue hname hchild
  have hcreated := hs.created _ list hmem
  have hadded : s.Added (some list) { type := .sectionWithNames } id s₁ := by
    apply addChildValue_added (c := some list) hs _ rfl _ ⟨fun _ => rfl, fun _ => hlist⟩ hadd
    · rintro _ ⟨⟩
      exact hcreated
    · intro k hk hkname
      obtain ⟨i, hi, rfl⟩ := List.mem_iff_getElem.1 hk
      rw [hs.elements list hlist i hi] at hkname
      exact absurd (Name.index.inj (Option.some.inj hkname)) (Nat.ne_of_lt hi)
  have hsection : s.IsSection list := by
    rw [IsSection, hlist]
    rfl
  have hlist' := (hadded.grows.sectionList list hcreated).2 hlist
  have hlast : s₁.lastValue list = some id := by
    rw [lastValue_eq, hadded.listOf]
    exact List.getLast?_concat
  -- The lists on the way to the parent were created before the list that grows.
  have hresolves := hparent.grows hs hadded.rules hadded.grows (isPlain_dropLast hplain)
    fun k _ b hb hle _ => hadded.others _ fun heq => by
      cases heq
      rw [Option.mem_def.1 hb] at hmem
      exact absurd (hs.ordered b list hmem) (Nat.not_lt.2 hle)
  have hfound := hs.getChildValue_grows hadded.rules hadded.grows hname hchild hsection
  obtain rfl := updateLastSection_eq hupdate
  refine ⟨documentTree_withLast hadded.rules ?_ (resolves_back hback hresolves hfound
    (.inl ⟨hlist', hlast⟩)) hplain, hadded.grows.trans grows_withLast⟩
  intro k hk hklist
  by_cases hkl : k = list
  · rw [hkl, hadded.listOf]
    exact List.concat_ne_nil _ _
  · rw [hadded.others _ fun heq => hkl (Option.some.inj heq)]
    by_cases hknew : k = id
    · rw [hknew, hadded.type] at hklist
      cases hklist
    · rw [hadded.count] at hk
      have hlt := Nat.lt_of_le_of_ne (Nat.le_of_lt_succ hk) (hadded.isNew ▸ hknew)
      exact helements k hlt ((hadded.grows.sectionList k hlt).1 hklist) hkl

theorem addSectionList_tree (hs : DocumentTree s)
    (h : s.addSectionList namePath location = .ok s') : DocumentTree s' ∧ s.Grows s' := by
  rw [addSectionList] at h
  cases hback : namePath.getLast? with
  | none =>
    rw [hback] at h
    cases h
  | some back =>
    rw [hback] at h
    simp only at h
    split_ifs at h with hindex htext
    have hplain := isPlain_of_containsIndex hindex
    have hname := hplain back (List.mem_of_getLast? hback)
    obtain ⟨⟨⟨parent, value⟩, s₁⟩, hresolve, h⟩ := bind_eq_ok h
    obtain ⟨hopens, hparent, hcreated, hmap, hvalue⟩ :=
      resolveForSection_opens hs.rules hplain hresolve
    have helements := hopens.hasElements hs.hasElements
    cases value with
    | some list =>
      simp only at h
      split_ifs at h with htype
      obtain ⟨⟨id, s₂⟩, hadd, hupdate⟩ := bind_eq_ok h
      obtain ⟨htree, hgrows⟩ := addElement_tree hopens.rules hplain hback hparent hvalue
        (not_not.1 htype) (fun id hid hlist _ => helements id hid hlist) hadd hupdate
      exact ⟨htree, hopens.grows.trans hgrows⟩
    | none =>
      obtain ⟨⟨list, s₂⟩, hadd, h⟩ := bind_eq_ok h
      obtain ⟨⟨id, s₃⟩, hadd', hupdate⟩ := bind_eq_ok h
      rw [getChildValue_eq hname] at hvalue
      have hadded := addChildValue_added hopens.rules hcreated rfl
        (fun k hk hkname => absurd hkname (hopens.rules.ne_of_valueMap hvalue hk))
        ⟨fun hlist => absurd hlist (ValueType.ne_sectionList hmap),
          fun h => absurd h (Option.some_ne_none _)⟩ hadd
      have hresolves := hparent.grows hopens.rules hadded.rules hadded.grows
        (isPlain_dropLast hplain) fun k hk _ _ _ =>
          hadded.keepsLists (ValueType.ne_sectionList hmap) k hk
      have hold : ∀ k < s₂.count, (s₂.values k).type = .sectionList → k ≠ list →
          s₂.listOf (some k) ≠ [] := by
        intro k hk hklist hkl
        rw [hadded.count] at hk
        have hlt := Nat.lt_of_le_of_ne (Nat.le_of_lt_succ hk) (hadded.isNew ▸ hkl)
        have helement := helements k hlt ((hadded.grows.sectionList k hlt).1 hklist)
        rwa [hadded.keepsLists (ValueType.ne_sectionList hmap) k hlt
          ((hadded.grows.sectionList k hlt).1 hklist)]
      obtain ⟨htree, hgrows⟩ := addElement_tree hadded.rules hplain hback hresolves
        (hadded.getChildValue rfl hname rfl) hadded.type hold hadd' hupdate
      exact ⟨htree, (hopens.grows.trans hadded.grows).trans hgrows⟩

/-- The section a value with a name path is added to. -/
def sectionPath (s : DocumentBuilderStorage) (namePath : NamePath) : NamePath :=
  if namePath.length = 1 then s.lastSectionNamePath else namePath.dropLast

theorem resolveForValue_resolves (hs : DocumentTree s)
    (h : s.resolveForValue namePath location = .ok c) :
    s.Resolves none (s.sectionPath namePath) c ∧ IsPlain (s.sectionPath namePath) ∧
      IsPlain namePath ∧ namePath ≠ [] ∧ (c = none → s.lastSectionValue = none) := by
  rw [resolveForValue] at h
  split_ifs at h with hempty hindex hlength
  · have hplain := isPlain_of_containsIndex hindex
    rw [sectionPath, if_pos hlength]
    cases h
    have hne : namePath ≠ [] := fun hnil => hempty (List.isEmpty_iff.2 hnil)
    refine ⟨?_, hs.plain, hplain, hne, id⟩
    cases hlast : s.lastSectionValue with
    | none =>
      rw [(hs.atStart hlast).1]
      exact .here
    | some id => exact hs.atSection id hlast
  · have hplain := isPlain_of_containsIndex hindex
    have hne : namePath ≠ [] := fun hnil => hempty (List.isEmpty_iff.2 hnil)
    rw [sectionPath, if_neg hlength]
    have hresolves := resolves_of_resolveExisting h
    refine ⟨hresolves, isPlain_dropLast hplain, hplain, hne, fun hc => ?_⟩
    rcases List.eq_nil_or_concat namePath with rfl | ⟨init, name, rfl⟩
    · exact absurd rfl hne
    · rw [List.concat_eq_append] at hresolves hlength hplain
      rw [List.dropLast_concat] at hresolves
      cases hresolves with
      | here => exact absurd rfl hlength
      | step hchild henter hrest =>
        have hplain' := fun n hn => hplain n (List.mem_append_left _ (List.mem_cons_of_mem _ hn))
        obtain ⟨b, hb, _⟩ := hrest.le hs.rules hplain' _ rfl
        rw [hc] at hb
        cases hb

/-- A value was added to the section of its path. -/
structure AddsValue (s : DocumentBuilderStorage) (namePath : NamePath) (v : NewValue) (c : Container)
    (name : Name) (s' : DocumentBuilderStorage) : Prop where
  valueName : (v.name <|> namePath.getLast?) = some name
  resolves : s.Resolves none (s.sectionPath namePath) c
  plain : IsPlain (s.sectionPath namePath)
  atStart : c = none → s.lastSectionValue = none
  isMap : (s.typeOf c).isMap = true
  isValue : v.type.isSectionOrList = false
  added : s.Added c { name := some name, type := v.type } s.count s'

theorem addValue_addsValue {v : NewValue} (hs : DocumentTree s)
    (h : s.addValue namePath (some v) location = .ok s') :
    ∃ c name, s.AddsValue namePath v c name s' := by
  rw [addValue] at h
  split_ifs at h with hundefined hsection
  obtain ⟨c, hresolve, h⟩ := bind_eq_ok h
  obtain ⟨hresolves, hplain, hpath, hne, hstart⟩ := resolveForValue_resolves hs hresolve
  obtain ⟨name, hname⟩ : ∃ name, (v.name <|> namePath.getLast?) = some name := by
    cases v.name with
    | none => exact ⟨_, List.getLast?_eq_some_getLast hne⟩
    | some name => exact ⟨name, rfl⟩
  simp only [hname] at h
  split_ifs at h with hconflict
  obtain ⟨⟨id, s₁⟩, hadd, h⟩ := bind_eq_ok h
  cases h
  have hcreated := hresolves.created hs.rules hplain fun _ h => absurd h (Option.not_mem_none _)
  have hmap := hresolves.isMap hs.rules rfl
  have hvalue : v.type.isSectionOrList = false := by simpa using hsection
  have hadded : s.Added c { name := some name, type := v.type } id s₁ := by
    apply addChildValue_added hs.rules hcreated rfl _ ⟨fun hlist => absurd hlist
      (ValueType.ne_sectionList hmap), fun h => absurd h (Option.some_ne_none _)⟩ hadd
    intro k hk hkname
    cases c with
    | none => exact ⟨rfl, (hs.atStart (hstart rfl)).2 k hk, hvalue⟩
    | some p =>
      rw [Option.any_some, Option.any_some, ValueMap.hasValue, Bool.not_eq_true,
        Option.isSome_eq_false_iff, Option.isNone_iff_eq_none] at hconflict
      have hmissing : (s.children (some p)).valueMap name = none := hconflict
      exact absurd hkname (hs.rules.ne_of_valueMap hmissing hk)
  obtain rfl := hadded.isNew
  exact ⟨c, name, hname, hresolves, hplain, hstart, hmap, hvalue, hadded⟩

theorem AddsValue.tree {v : NewValue} {name : Name} (h : s.AddsValue namePath v c name s')
    (hs : DocumentTree s) : DocumentTree s' := by
  have hopens := h.added.opens h.isMap fun htype => by
    have hvalue := h.isValue
    rw [show v.type = .sectionList from htype] at hvalue
    cases hvalue
  refine ⟨hopens.rules, hopens.hasElements hs.hasElements, ?_, ?_, ?_⟩
  · intro hlast
    rw [hopens.keepsLast.value] at hlast
    obtain ⟨hpath, hvalues⟩ := hs.atStart hlast
    refine ⟨hopens.keepsLast.namePath.trans hpath, fun id hid => ?_⟩
    have hold : ∀ id ∈ s.listOf none, ¬ s'.IsSection id := fun id hid => by
      rw [hopens.grows.isSection (hs.rules.created none id hid)]
      exact hvalues id hid
    by_cases hc : c = none
    · subst hc
      rw [h.added.listOf] at hid
      rcases List.mem_append.1 hid with hid | hid
      · exact hold id hid
      · rw [List.mem_singleton.1 hid, IsSection, h.added.type]
        exact fun hsection => absurd (h.isValue.symm.trans hsection) (by decide)
    · rw [h.added.others none (Ne.symm hc)] at hid
      exact hold id hid
  · intro id hlast
    rw [hopens.keepsLast.value] at hlast
    rw [hopens.keepsLast.namePath]
    exact hopens.resolves hs.rules (hs.atSection id hlast) hs.plain
  · rw [hopens.keepsLast.namePath]
    exact hs.plain

theorem call_tree (hs : DocumentTree s) {call : BuilderCall} (h : s.call call = .ok s') :
    DocumentTree s' ∧ s.Grows s' := by
  cases call with
  | addSectionMap namePath location => exact addSectionMap_tree hs h
  | addSectionList namePath location => exact addSectionList_tree hs h
  | addValue namePath value location =>
    cases value with
    | none => cases h
    | some v =>
      obtain ⟨c, name, hvalue⟩ := addValue_addsValue hs h
      exact ⟨hvalue.tree hs, hvalue.added.grows⟩

theorem calls_tree {calls : List BuilderCall} (hs : DocumentTree s)
    (h : calls.foldlM call s = .ok s') : DocumentTree s' ∧ s.Grows s' := by
  induction calls generalizing s with
  | nil =>
    cases h
    exact ⟨hs, .refl _⟩
  | cons call calls ih =>
    rw [List.foldlM_cons] at h
    obtain ⟨s₁, hcall, hrest⟩ := bind_eq_ok h
    obtain ⟨htree, hgrows⟩ := call_tree hs hcall
    obtain ⟨htree', hgrows'⟩ := ih htree hrest
    exact ⟨htree', hgrows.trans hgrows'⟩

/-- What every document satisfies that is built without an error. -/
structure WellFormed (s : DocumentBuilderStorage) : Prop where
  parent : ∀ c, ∀ id ∈ s.listOf c, (s.values id).parent = some c
  unique : ∀ id, ((s.listOf (some id)).map s.nameOf).Nodup
  uniqueRoot : (s.listOf none).Pairwise fun a b =>
    s.nameOf a = s.nameOf b → ¬ s.IsSection a ∧ ¬ s.IsSection b
  rootValues : ∀ id ∈ s.listOf none, ¬ s.IsSection id → (s.values id).isMeta = true
  intermediate : ∀ id, (s.values id).type = .intermediateSection →
    ∀ child ∈ s.listOf (some id), s.IsSection child
  notMixed : ∀ c, ∀ a ∈ s.listOf c, ∀ b ∈ s.listOf c,
    (s.values a).nameType = .text → (s.values b).nameType ≠ .regular
  textNamed : ∀ id, (s.values id).isText = true →
    ∀ child ∈ s.listOf (some id), (s.values child).type.isMap = false
  lists : ∀ id < s.count, (s.values id).type = .sectionList → s.listOf (some id) ≠ [] ∧
    ∀ child ∈ s.listOf (some id), (s.values child).type = .sectionWithNames ∨
      (s.values child).type = .sectionWithTexts

/-- Two children of one container do not have a text and a regular name. -/
theorem Admits.not_mixed {a b : Value} (ha : Admits type text a) (hb : Admits type text b)
    (hlist : type = .sectionList → a.nameType = .index) (htext : a.nameType = .text) :
    b.nameType ≠ .regular := by
  obtain ⟨_, ha⟩ := ha
  obtain ⟨_, hb⟩ := hb
  cases type with
  | document => exact absurd (isText_iff.2 htext) (by simp [ha.1])
  | intermediateSection => exact absurd htext ha.2
  | sectionWithNames => exact absurd htext ha
  | sectionWithTexts => exact hb
  | sectionList =>
    rw [hlist rfl] at htext
    cases htext
  | _ => exact ha.elim

theorem DocumentTree.wellFormed (h : DocumentTree s) : s.WellFormed where
  parent := h.rules.parent
  unique := h.rules.unique
  uniqueRoot := h.rules.uniqueRoot
  rootValues id hid hsection :=
    (h.rules.admitted none id hid).2.2.resolve_left hsection
  intermediate id htype child hchild := by
    have hadmits := h.rules.admitted _ child hchild
    rw [typeOf, htype] at hadmits
    exact hadmits.2.1
  notMixed c a ha b hb := by
    apply Admits.not_mixed (h.rules.admitted c a ha) (h.rules.admitted c b hb)
    intro htype
    cases c with
    | none => cases htype
    | some id =>
      obtain ⟨i, hi, rfl⟩ := List.mem_iff_getElem.1 ha
      have hname := h.rules.elements id htype i hi
      rw [nameOf] at hname
      rw [Value.nameType, hname]
      rfl
  textNamed id htext child hchild := (h.rules.admitted (some id) child hchild).1 htext
  lists id hid htype := by
    refine ⟨h.hasElements id hid htype, fun child hchild => ?_⟩
    have hadmits := h.rules.admitted _ child hchild
    rw [typeOf, htype] at hadmits
    exact hadmits.2

/-- The document finds a value under a path, with the indexes of the list elements it was added to. -/
def Finds (s s₀ : DocumentBuilderStorage) (namePath : NamePath) (v : NewValue) : Prop :=
  ∀ name ∈ (v.name <|> namePath.getLast?), name.isTextIndex = false →
    (s₀.lastSectionValue = none →
      ∀ id ∈ s.listOf none, s.nameOf id = some name → id = s₀.count) →
    s.value (s₀.withLastElements none (s₀.sectionPath namePath) ++ [name]) = some s₀.count ∧
      (s.values s₀.count).type = v.type

theorem descend_append {names' : NamePath} (h : s.descend c names = some c') :
    s.descend c (names ++ names') = s.descend c' names' := by
  induction names generalizing c with
  | nil =>
    cases h
    rfl
  | cons name names ih =>
    obtain ⟨id, hchild, hrest⟩ := Option.bind_eq_some_iff.1 h
    rw [List.cons_append, descend, hchild, Option.bind_some]
    exact ih hrest

theorem AddsValue.finds {v : NewValue} {name : Name} {s₀ s₁ : DocumentBuilderStorage}
    (h : s₀.AddsValue namePath v c name s₁) (h₀ : DocumentTree s₀) (hs : DocumentTree s)
    (hg : s₁.Grows s) : s.Finds s₀ namePath v := by
  intro name' hname' hplain hroot
  obtain rfl : name = name' := Option.some.inj (h.valueName.symm.trans hname')
  have hlt := h.added.created
  have hsection : ∀ id ∈ c, s₀.IsSection id := by
    rintro id rfl
    have hmap := h.isMap
    rw [IsSection, ValueType.isSectionOrList]
    rw [typeOf] at hmap
    rw [hmap, Bool.true_or]
  have hpath := h₀.rules.descend_grows hs.rules (h.added.grows.trans hg)
    (isPlain_withLastElements h.plain none) (h.resolves.descend_eq h₀.rules) hsection
  have hmem := (hg.listOf c).subset h.added.mem
  have hid : s.nameOf s₀.count = some name := (hg.nameOf _ hlt).trans h.added.nameOf
  have hchild := hs.rules.getChildValue_of_mem hmem hid hplain fun hc =>
    .inr (hroot (h.atStart hc))
  refine ⟨?_, ?_⟩
  · rw [value, if_neg, descend_append hpath, descend, hchild]
    · rfl
    · simp only [List.isEmpty_iff, List.append_eq_nil_iff, List.cons_ne_nil, and_false,
        not_false_eq_true]
  · have hmap : (s₁.values s₀.count).type.isMap = false := by
      have hvalue := h.isValue
      rw [ValueType.isSectionOrList, Bool.or_eq_false_iff] at hvalue
      rw [h.added.type]
      exact hvalue.1
    exact (hg.type _ hlt hmap).trans h.added.type

/-- Documents that are built without an error are well formed and find all their values. -/
theorem build_wellFormed {calls : List BuilderCall} (h : build calls = .ok s) :
    s.WellFormed ∧ ∀ before namePath v location after,
      calls = before ++ .addValue namePath (some v) location :: after →
      ∃ s₀, build before = .ok s₀ ∧ s.Finds s₀ namePath v := by
  refine ⟨(calls_tree documentTree_initial h).1.wellFormed, ?_⟩
  rintro before namePath v location after rfl
  rw [build, List.foldlM_append] at h
  obtain ⟨s₀, hbefore, h⟩ := bind_eq_ok h
  rw [List.foldlM_cons] at h
  obtain ⟨s₁, hadd, hafter⟩ := bind_eq_ok h
  have h₀ := (calls_tree documentTree_initial hbefore).1
  obtain ⟨c, name, hvalue⟩ := addValue_addsValue h₀ hadd
  obtain ⟨hs, hgrows⟩ := calls_tree (hvalue.tree h₀) hafter
  exact ⟨s₀, hbefore, hvalue.finds h₀ hs hgrows⟩

end

/-- The value of the second server. -/
theorem build_wellFormed_servers :
    let server : Name := .regular ⟨['s'], by decide⟩
    let port : Name := .regular ⟨['p'], by decide⟩
    let calls : List BuilderCall := [.addSectionList [server] {}, .addSectionList [server] {},
      .addValue [server, port] (some { type := .integer }) {}]
    ∃ s, build calls = .ok s ∧ s.value [server, .index 1, port] = some 3 ∧ s.WellFormed ∧
      ∃ s₀, build (calls.take 2) = .ok s₀ ∧ s.Finds s₀ [server, port] { type := .integer } := by
  intro server port calls
  have h : build calls = .ok _ := rfl
  obtain ⟨hformed, hfinds⟩ := build_wellFormed h
  exact ⟨_, h, rfl, hformed, hfinds (calls.take 2) [server, port] { type := .integer } {} [] rfl⟩

/-- A list element can become a section with texts, a section with a text name can get a section
list, and the document can get two values with one meta name. -/
theorem build_exceptions :
    let list : Name := .regular ⟨['l'], by decide⟩
    let words : Name := .regular ⟨['w'], by decide⟩
    let version : Name := .regular ⟨['@', 'v'], by decide⟩
    let text : Name := .text ⟨['t'], by decide⟩
    let number : Option NewValue := some { type := .integer }
    (∃ s, build [.addSectionList [list] {}, .addValue [text] number {}] = .ok s ∧
      (s.values 0).type = .sectionList ∧ s.listOf (some 0) = [1] ∧
      (s.values 1).type = .sectionWithTexts) ∧
    (∃ s, build [.addSectionList [words, text, list] {}] = .ok s ∧
      (s.values 1).isText = true ∧ s.listOf (some 1) = [2] ∧ (s.values 2).type = .sectionList) ∧
    ∃ s, build [.addValue [version] number {}, .addValue [version] number {}] = .ok s ∧
      s.listOf none = [0, 1] ∧ s.nameOf 0 = s.nameOf 1 :=
  ⟨⟨_, rfl, rfl, rfl, rfl⟩, ⟨_, rfl, rfl, rfl, rfl⟩, ⟨_, rfl, rfl, rfl⟩⟩

end ErbslandCore.Conf.DocumentBuilderStorage
