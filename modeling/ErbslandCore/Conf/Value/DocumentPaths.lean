import Mathlib.Data.List.Pairwise
import ErbslandCore.Conf.Value.DocumentGrowth

namespace ErbslandCore.Conf.DocumentBuilderStorage
open Library
set_option autoImplicit true

/-- The children with the names of a path, one after the other. -/
def descend (s : DocumentBuilderStorage) : Container → NamePath → Option Container
  | c, [] => some c
  | c, name :: names => (s.getChildValue c name).bind fun id => s.descend (some id) names

/-- The value the document finds at a name path. -/
def value (s : DocumentBuilderStorage) (namePath : NamePath) : Option ValueId :=
  if namePath.isEmpty then none else (s.descend none namePath).join

/-- A path with the index of the last element after the name of each section list. -/
def withLastElements (s : DocumentBuilderStorage) : Container → NamePath → NamePath
  | _, [] => []
  | c, name :: names =>
    match s.getChildValue c name with
    | none => name :: names
    | some id =>
      if (s.values id).type = .sectionList then
        match s.lastValue id with
        | none => name :: names
        | some last =>
          name :: .index ((s.values id).children.size - 1) :: s.withLastElements (some last) names
      else name :: s.withLastElements (some id) names

/-- A name on the way leads to the section itself or to the last one of its list. -/
def Enters (s : DocumentBuilderStorage) (id target : ValueId) : Prop :=
  ((s.values id).type = .sectionList ∧ s.lastValue id = some target) ∨
    ((s.values id).type.isMap = true ∧ target = id)

/-- The names lead from one container to another one. -/
inductive Resolves (s : DocumentBuilderStorage) : Container → NamePath → Container → Prop where
  | here : Resolves s c [] c
  | step {id target : ValueId} (hchild : s.getChildValue c name = some id)
      (henter : s.Enters id target)
      (hrest : Resolves s (some target) names c') : Resolves s c (name :: names) c'

/-- No name counts the values of a section with texts. -/
def IsPlain (names : List Name) : Prop := ∀ name ∈ names, name.isTextIndex = false

section
variable {s s' : DocumentBuilderStorage} {c c' : Container} {id target : ValueId} {name : Name}
  {names : List Name} {namePath : NamePath} {location : Location}

theorem getChildValue_eq (hname : name.isTextIndex = false) :
    s.getChildValue c name = (s.children c).valueMap name := by
  cases name with
  | textIndex => cases hname
  | _ => rfl

theorem Rules.of_getChildValue (hs : Rules s) (hname : name.isTextIndex = false)
    (h : s.getChildValue c name = some id) : id ∈ s.listOf c ∧ s.nameOf id = some name := by
  rw [getChildValue_eq hname] at h
  exact hs.found c name id h

theorem Rules.ne_of_valueMap (hs : Rules s) (h : (s.children c).valueMap name = none)
    (hmem : id ∈ s.listOf c) : s.nameOf id ≠ some name := by
  intro hname
  obtain ⟨name', hname', hfound⟩ := hs.named c id hmem
  obtain rfl : name' = name := Option.some.inj (hname'.symm.trans hname)
  rw [h] at hfound
  cases hfound

/-- A child is found under its name, unless it is a value of the document that is not alone. -/
theorem Rules.getChildValue_of_mem (hs : Rules s) (hmem : id ∈ s.listOf c)
    (hid : s.nameOf id = some name) (hname : name.isTextIndex = false)
    (hunique : c = none → s.IsSection id ∨ ∀ k ∈ s.listOf none, s.nameOf k = some name → k = id) :
    s.getChildValue c name = some id := by
  obtain ⟨name', hname', hfound⟩ := hs.named c id hmem
  obtain rfl : name' = name := Option.some.inj (hname'.symm.trans hid)
  obtain ⟨k, hk⟩ := Option.isSome_iff_exists.1 hfound
  obtain ⟨hkmem, hkname⟩ := hs.found c name' k hk
  have hsame : k = id := by
    cases c with
    | none =>
      rcases hunique rfl with hsection | hsingle
      · by_contra hne
        have hsymm : Std.Symm fun a b =>
            s.nameOf a = s.nameOf b → ¬ s.IsSection a ∧ ¬ s.IsSection b :=
          ⟨fun a b hab hba => (hab hba.symm).symm⟩
        exact (hs.uniqueRoot.forall hkmem hmem hne (hkname.trans hid.symm)).2 hsection
      · exact hsingle k hkmem hkname
    | some p => exact List.inj_on_of_nodup_map (hs.unique p) hkmem hmem (hkname.trans hid.symm)
  rw [getChildValue_eq hname, hk, hsame]

theorem lastValue_eq : s.lastValue id = (s.listOf (some id)).getLast? := by
  rw [lastValue, ValueMap.valueAt, ValueMap.empty, ValueMap.size, listOf, children,
    List.getLast?_eq_getElem?]
  by_cases hempty : (s.values id).children.valueList = []
  · rw [hempty]
    rfl
  · simp only [List.isEmpty_iff, hempty, if_false]

theorem enters_of_enter (h : s.enter id namePath location = .ok target) : s.Enters id target := by
  rw [enter] at h
  split_ifs at h with hlist hmap
  · cases hlast : s.lastValue id with
    | none =>
      rw [hlast] at h
      cases h
    | some last =>
      rw [hlast] at h
      cases h
      exact .inl ⟨hlist, hlast⟩
  · cases h
    exact .inr ⟨by simpa using hmap, rfl⟩

theorem Enters.mem (h : s.Enters id target) :
    target = id ∨ ((s.values id).type = .sectionList ∧ target ∈ s.listOf (some id)) := by
  rcases h with ⟨hlist, hlast⟩ | ⟨_, rfl⟩
  · rw [lastValue_eq] at hlast
    exact .inr ⟨hlist, List.mem_of_getLast? hlast⟩
  · exact .inl rfl

theorem Enters.created (h : s.Enters id target) (hs : Rules s) (hid : id < s.count) :
    target < s.count := by
  rcases h.mem with rfl | ⟨_, hmem⟩
  · exact hid
  · exact hs.created _ target hmem

theorem Enters.isMap (h : s.Enters id target) (hs : Rules s) :
    (s.values target).type.isMap = true := by
  rcases h with ⟨hlist, hlast⟩ | ⟨hmap, rfl⟩
  · rw [lastValue_eq] at hlast
    have hadmits := hs.admitted _ target (List.mem_of_getLast? hlast)
    rw [typeOf, hlist] at hadmits
    rcases hadmits.2 with htype | htype <;> rw [htype] <;> rfl
  · exact hmap

theorem Rules.lastElement (hs : Rules s) (hlist : (s.values id).type = .sectionList)
    (hlast : s.lastValue id = some target) :
    s.getChildValue (some id) (.index ((s.values id).children.size - 1)) = some target := by
  rw [lastValue_eq, List.getLast?_eq_getElem?] at hlast
  obtain ⟨hlt, htarget⟩ := List.getElem?_eq_some_iff.1 hlast
  have hname := hs.elements id hlist _ hlt
  rw [htarget] at hname
  exact hs.getChildValue_of_mem (htarget ▸ List.getElem_mem hlt) hname rfl (fun h => nomatch h)

theorem Resolves.descend_eq (h : s.Resolves c names c') (hs : Rules s) :
    s.descend c (s.withLastElements c names) = some c' := by
  induction h with
  | here => rfl
  | step hchild henter _ ih =>
    rw [withLastElements, hchild]
    simp only
    rcases henter with ⟨hlist, hlast⟩ | ⟨hmap, rfl⟩
    · rw [if_pos hlist, hlast]
      simp only [descend, hchild, hs.lastElement hlist hlast, Option.bind_some]
      exact ih
    · rw [if_neg, descend, hchild, Option.bind_some]
      · exact ih
      · intro hlist
        rw [hlist] at hmap
        cases hmap

theorem isPlain_withLastElements (h : IsPlain names) (c : Container) :
    IsPlain (s.withLastElements c names) := by
  induction names generalizing c with
  | nil => exact nofun
  | cons name names ih =>
    have hrest := ih fun n hn => h n (List.mem_cons_of_mem _ hn)
    have hname := h name List.mem_cons_self
    rw [withLastElements]
    cases s.getChildValue c name with
    | none => exact h
    | some id =>
      simp only
      split_ifs
      · cases s.lastValue id with
        | none => exact h
        | some last =>
          rintro n (_ | ⟨_, _ | ⟨_, hn⟩⟩)
          · exact hname
          · rfl
          · exact hrest _ n hn
      · rintro n (_ | ⟨_, hn⟩)
        · exact hname
        · exact hrest _ n hn

/-- Only the indexes of list elements are new in the path. -/
theorem filter_withLastElements (h : ∀ name ∈ names, name.isIndex = false) (c : Container) :
    (s.withLastElements c names).filter (fun name => !name.isIndex) = names := by
  induction names generalizing c with
  | nil => rfl
  | cons name names ih =>
    have hname : (!name.isIndex) = true := by rw [h name List.mem_cons_self, Bool.not_false]
    have hrest := ih fun n hn => h n (List.mem_cons_of_mem _ hn)
    have hself : (name :: names).filter (fun name => !name.isIndex) = name :: names :=
      List.filter_eq_self.2 fun n hn => by rw [h n hn, Bool.not_false]
    rw [withLastElements]
    cases s.getChildValue c name with
    | none => exact hself
    | some id =>
      simp only
      split_ifs
      · cases s.lastValue id with
        | none => exact hself
        | some last =>
          simp only
          rw [List.filter_cons, if_pos hname, List.filter_cons, if_neg (by exact Bool.false_ne_true), hrest]
      · rw [List.filter_cons, if_pos hname, hrest]

theorem Resolves.append (h : s.Resolves c names c') (h' : s.Resolves c' names' c'') :
    s.Resolves c (names ++ names') c'' := by
  induction h with
  | here => exact h'
  | step hchild henter _ ih => exact .step hchild henter (ih h')

theorem Resolves.created (h : s.Resolves c names c') (hs : Rules s) (hnames : IsPlain names)
    (hc : s.IsCreated c) : s.IsCreated c' := by
  induction h with
  | here => exact hc
  | step hchild henter _ ih =>
    apply ih fun n hn => hnames n (List.mem_cons_of_mem _ hn)
    rintro _ ⟨⟩
    exact henter.created hs
      (hs.created _ _ (hs.of_getChildValue (hnames _ List.mem_cons_self) hchild).1)

theorem Resolves.isMap (h : s.Resolves c names c') (hs : Rules s)
    (hc : (s.typeOf c).isMap = true) : (s.typeOf c').isMap = true := by
  induction h with
  | here => exact hc
  | step _ henter _ ih => exact ih (henter.isMap hs)

theorem Enters.isSection (h : s.Enters id target) : s.IsSection id := by
  rcases h with ⟨hlist, _⟩ | ⟨hmap, _⟩
  · rw [IsSection, hlist]
    rfl
  · rw [IsSection, ValueType.isSectionOrList, hmap, Bool.true_or]

theorem Rules.isSection_of_mem (hs : Rules s) {child : ValueId}
    (hmem : child ∈ s.listOf (some id)) : s.IsSection id :=
  (hs.admitted _ child hmem).isSectionOrList

theorem Rules.getChildValue_grows (hs : Rules s) (hs' : Rules s') (hg : s.Grows s')
    (hname : name.isTextIndex = false) (h : s.getChildValue c name = some id)
    (hunique : s.IsSection id) : s'.getChildValue c name = some id := by
  obtain ⟨hmem, hid⟩ := hs.of_getChildValue hname h
  have hlt := hs.created c id hmem
  apply hs'.getChildValue_of_mem ((hg.listOf c).subset hmem) ((hg.nameOf id hlt).trans hid) hname
  exact fun _ => .inl ((hg.isSection hlt).2 hunique)

/-- A path to a section leads to it for ever. -/
theorem Rules.descend_grows (hs : Rules s) (hs' : Rules s') (hg : s.Grows s')
    (hnames : IsPlain names) (h : s.descend c names = some c') (hc' : ∀ id ∈ c', s.IsSection id) :
    s'.descend c names = some c' := by
  induction names generalizing c with
  | nil => exact h
  | cons name names ih =>
    obtain ⟨id, hchild, hrest⟩ := Option.bind_eq_some_iff.1 h
    have hnames' : IsPlain names := fun n hn => hnames n (List.mem_cons_of_mem _ hn)
    have hsection : s.IsSection id := by
      cases names with
      | nil =>
        cases hrest
        exact hc' id rfl
      | cons name' names =>
        obtain ⟨child, hchild', _⟩ := Option.bind_eq_some_iff.1 hrest
        exact hs.isSection_of_mem
          (hs.of_getChildValue (hnames' name' List.mem_cons_self) hchild').1
    rw [descend, hs.getChildValue_grows hs' hg (hnames name List.mem_cons_self) hchild hsection]
    exact ih hnames' hrest

theorem Enters.grows (h : s.Enters id target) (hg : s.Grows s') (hid : id < s.count)
    (hkeeps : (s.values id).type = .sectionList → s'.listOf (some id) = s.listOf (some id)) :
    s'.Enters id target := by
  rcases h with ⟨hlist, hlast⟩ | ⟨hmap, rfl⟩
  · left
    rw [lastValue_eq] at hlast ⊢
    rw [hkeeps hlist]
    exact ⟨(hg.sectionList id hid).2 hlist, hlast⟩
  · right
    rw [hg.isMap _ hid]
    exact ⟨hmap, rfl⟩

theorem Enters.le (h : s.Enters id target) (hs : Rules s) : id ≤ target := by
  rcases h.mem with rfl | ⟨_, hmem⟩
  · exact Nat.le_refl _
  · exact Nat.le_of_lt (hs.ordered id target hmem)

/-- Children are created after their container. -/
theorem Resolves.le (h : s.Resolves c names c') (hs : Rules s) (hnames : IsPlain names) :
    ∀ a ∈ c, ∃ b ∈ c', a ≤ b := by
  induction h with
  | here => exact fun a ha => ⟨a, ha, Nat.le_refl _⟩
  | step hchild henter _ ih =>
    rintro a rfl
    obtain ⟨b, hb, hle⟩ := ih (fun n hn => hnames n (List.mem_cons_of_mem _ hn)) _ rfl
    have hlt := hs.ordered a _ (hs.of_getChildValue (hnames _ List.mem_cons_self) hchild).1
    exact ⟨b, hb, Nat.le_trans (Nat.le_of_lt hlt) (Nat.le_trans (henter.le hs) hle)⟩

/-- A way survives when no list up to its end gets another element. -/
theorem Resolves.grows (h : s.Resolves c names c') (hs : Rules s) (hs' : Rules s')
    (hg : s.Grows s') (hnames : IsPlain names)
    (hkeeps : ∀ id < s.count, ∀ b ∈ c', id ≤ b → (s.values id).type = .sectionList →
      s'.listOf (some id) = s.listOf (some id)) : s'.Resolves c names c' := by
  induction h with
  | here => exact .here
  | step hchild henter hrest ih =>
    have hname := hnames _ List.mem_cons_self
    have hnames' := fun n hn => hnames n (List.mem_cons_of_mem _ hn)
    have hid := hs.created _ _ (hs.of_getChildValue hname hchild).1
    obtain ⟨b, hb, hle⟩ := hrest.le hs hnames' _ rfl
    exact .step (hs.getChildValue_grows hs' hg hname hchild henter.isSection)
      (henter.grows hg hid (hkeeps _ hid b hb (Nat.le_trans (henter.le hs) hle)))
      (ih hnames' hkeeps)

theorem resolves_of_resolveExisting
    (h : s.resolveExisting namePath location c names = .ok c') : s.Resolves c names c' := by
  induction names generalizing c with
  | nil =>
    cases h
    exact .here
  | cons name names ih =>
    rw [resolveExisting] at h
    cases hchild : s.getChildValue c name with
    | none =>
      rw [hchild] at h
      cases h
    | some id =>
      rw [hchild] at h
      obtain ⟨target, henter, h⟩ := bind_eq_ok h
      exact .step hchild (enters_of_enter henter) (ih h)

/-- Every section list has an element. -/
def HasElements (s : DocumentBuilderStorage) : Prop :=
  ∀ id < s.count, (s.values id).type = .sectionList → s.listOf (some id) ≠ []

/-- What opening a section does before the section itself is added. -/
structure Opens (s s' : DocumentBuilderStorage) : Prop where
  rules : Rules s'
  grows : s.Grows s'
  keepsLists : s.KeepsLists s'
  keepsLast : s.KeepsLast s'
  hasElements : s.HasElements → s'.HasElements

theorem Opens.refl (hs : Rules s) : s.Opens s :=
  ⟨hs, .refl s, .refl s, .refl s, id⟩

theorem Opens.trans {s'' : DocumentBuilderStorage} (h : s.Opens s') (h' : s'.Opens s'') :
    s.Opens s'' where
  rules := h'.rules
  grows := h.grows.trans h'.grows
  keepsLists := h.keepsLists.trans h.grows h'.keepsLists
  keepsLast := h.keepsLast.trans h'.keepsLast
  hasElements hs := h'.hasElements (h.hasElements hs)

theorem Opens.resolves (h : s.Opens s') (hs : Rules s) (hresolves : s.Resolves c names c')
    (hnames : IsPlain names) : s'.Resolves c names c' :=
  hresolves.grows hs h.rules h.grows hnames fun id hid _ _ _ => h.keepsLists id hid

theorem Retypes.opens (h : s.Retypes id v) (hs : Rules s) : s.Opens (s.update id v) where
  rules := hs.retype h
  grows := h.grows
  keepsLists := h.keepsLists
  keepsLast := keepsLast_update
  hasElements hold k hk hlist := by
    rw [h.listOf]
    exact hold k hk ((h.sectionList k).1 hlist)

theorem Added.mem (h : s.Added c v id s') : id ∈ s'.listOf c := by
  rw [h.listOf]
  exact List.mem_append_right _ List.mem_cons_self

theorem Added.created (h : s.Added c v id s') : id < s'.count := by
  rw [h.count, h.isNew]
  exact Nat.lt_succ_self _

theorem Added.hasElements (h : s.Added c v id s') (htype : v.type ≠ .sectionList)
    (hs : s.HasElements) : s'.HasElements := by
  intro k hk hlist
  by_cases hkid : k = id
  · rw [hkid, h.type] at hlist
    exact absurd hlist htype
  · rw [h.count] at hk
    have hlt : k < s.count := Nat.lt_of_le_of_ne (Nat.le_of_lt_succ hk) (h.isNew ▸ hkid)
    have hold := hs k hlt ((h.grows.sectionList k hlt).1 hlist)
    intro hempty
    have hprefix := h.grows.listOf (some k)
    rw [hempty] at hprefix
    exact hold (List.prefix_nil.1 hprefix)

theorem Added.opens (h : s.Added c v id s') (hc : (s.typeOf c).isMap = true)
    (htype : v.type ≠ .sectionList) : s.Opens s' where
  rules := h.rules
  grows := h.grows
  keepsLists := h.keepsLists fun hlist => by
    rw [hlist] at hc
    cases hc
  keepsLast := h.keepsLast
  hasElements := h.hasElements htype

/-- A named child that was added is found under its name if it is a section. -/
theorem Added.getChildValue (h : s.Added c v id s') (hname : v.name = some name)
    (hplain : name.isTextIndex = false) (hsection : v.type.isSectionOrList = true) :
    s'.getChildValue c name = some id := by
  have hid := h.nameOf
  rw [hname, ValueMap.newName, Option.getD_some] at hid
  apply h.rules.getChildValue_of_mem h.mem hid hplain
  intro _
  left
  rw [IsSection, h.type]
  exact hsection

theorem resolveParents_opens (hs : Rules s) (hc : s.IsCreated c)
    (hmap : (s.typeOf c).isMap = true) (hnames : IsPlain names)
    (h : resolveParents namePath location s c names = .ok (c', s')) :
    s.Opens s' ∧ s'.Resolves c names c' ∧ s'.IsCreated c' ∧ (s'.typeOf c').isMap = true := by
  induction names generalizing s c with
  | nil =>
    cases h
    exact ⟨.refl hs, .here, hc, hmap⟩
  | cons name names ih =>
    have hname := hnames name List.mem_cons_self
    have hnames' : IsPlain names := fun n hn => hnames n (List.mem_cons_of_mem _ hn)
    rw [resolveParents] at h
    cases hchild : s.getChildValue c name with
    | none =>
      rw [hchild] at h
      obtain ⟨⟨id, s₁⟩, hadd, h⟩ := bind_eq_ok h
      rw [getChildValue_eq hname] at hchild
      have hadded := addChildValue_added hs hc rfl
        (fun k hk hkname => absurd hkname (hs.ne_of_valueMap hchild hk)) ?_ hadd
      · have hopens := hadded.opens hmap (by rintro ⟨⟩)
        have htype : (s₁.typeOf (some id)).isMap = true := by
          rw [typeOf, hadded.type]
          rfl
        obtain ⟨hopens', hresolves, hc', hmap'⟩ := ih hadded.rules
          (fun _ h => by cases h; exact hadded.created) htype hnames' h
        have hfound := hadded.getChildValue rfl hname rfl
        have hsection : s₁.IsSection id := by
          rw [IsSection, hadded.type]
          rfl
        refine ⟨hopens.trans hopens', .step (hadded.rules.getChildValue_grows hopens'.rules
          hopens'.grows hname hfound hsection) (.inr ⟨?_, rfl⟩) hresolves, hc', hmap'⟩
        rw [hopens'.grows.isMap id hadded.created]
        exact htype
      · constructor
        · intro hlist
          rw [hlist] at hmap
          cases hmap
        · rintro ⟨⟩
    | some id =>
      rw [hchild] at h
      obtain ⟨target, henter, h⟩ := bind_eq_ok h
      have henters := enters_of_enter henter
      have hid := hs.created _ _ (hs.of_getChildValue hname hchild).1
      obtain ⟨hopens, hresolves, hc', hmap'⟩ := ih (c := some target) hs
        (fun _ h => by cases h; exact henters.created hs hid) (henters.isMap hs) hnames' h
      exact ⟨hopens, .step (hs.getChildValue_grows hopens.rules hopens.grows hname hchild
        henters.isSection) (henters.grows hopens.grows hid (hopens.keepsLists _ hid)) hresolves, hc', hmap'⟩

end

end ErbslandCore.Conf.DocumentBuilderStorage
