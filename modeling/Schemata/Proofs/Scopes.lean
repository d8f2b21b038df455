import Schemata.Proofs.Coverage
import Schemata.Proofs.Tree.Leading
import Schemata.Proofs.Tree.Naming
import Schemata.Proofs.Types

/-! The scope of a compound object and the fields of its type.

The fields are those of the children that have a name, under these names. Names are
checked on items before their metadata has been worked out, and bases are looked for
along references of items; but what can be reached in the types of a graph, along
refs and bases, are places of items that can be reached in the tree, and no compound
object leads to a simple one. So no field is a field of a base as well. -/
namespace Schemata

/-! ### Fields that come from elsewhere -/

/-- Where the fields of a type come from besides: a ref stands for its target, a record has
bases. -/
def Shape.behind : Shape → List TypeInfoId
  | ref target => [target]
  | record c => c.bases
  | _ => []

/-- What is behind a type, along refs and bases. -/
def TypeInfoTable.Behind (table : TypeInfoTable) : TypeInfoId → TypeInfoId → Prop :=
  Relation.ReflTransGen fun p q => ∃ info, table.get? p = some info ∧ q ∈ info.shape.behind

/-- The type of a compound element has the children with a name for its fields. No two of what the
element owns have one name, and no field is a field of another record behind the type. -/
structure Graph.Scoped (g : Graph) (id : ElementId) (children definitions : List ElementId)
    (record : ClassShape) : Prop where
  fields : record.fields.entries = children.filterMap fun x =>
    (g.element x).name.map fun name => (name, (g.element x).typeInfo)
  names : ((children ++ definitions).filterMap fun x => (g.element x).name).Nodup
  inherited : ∀ place arity other, g.typeInfos.Behind (g.element id).typeInfo place →
    place ≠ (g.element id).typeInfo → g.typeInfos.get? place = some ⟨arity, .record other⟩ →
    ∀ name ∈ record.fields.keys, name ∉ other.fields.keys

/-- The fields that elements with a name give. -/
def Graph.fieldsOf (g : Graph) (elements : List ElementId) : List (String × TypeInfoId) :=
  elements.filterMap fun x => (g.element x).name.map fun name => (name, (g.element x).typeInfo)

theorem Graph.map_fst_fieldsOf (g : Graph) (elements : List ElementId) :
    (g.fieldsOf elements).map Prod.fst = elements.filterMap fun x => (g.element x).name := by
  unfold fieldsOf
  rw [List.map_filterMap]
  refine List.filterMap_congr fun x _ => ?_
  cases (g.element x).name <;> rfl

namespace ItemTree

variable {t a : ItemTree} {plugin : Plugin} {options : Options} {id x y : ItemId} {c : Compiled}

/-! ### Bases in the tree -/

/-- What a path leads to is a base, unless it is where the path starts. -/
theorem Regular.mem_allBases (h : t.Regular) (hpath : t.Path id x) (hne : x ≠ id) :
    x ∈ t.allBases id := by
  have hreachable : x = id ∨
      Search.Reachable (t.basesBeyond id) (t.item id).itemReferences x := by
    induction hpath with
    | refl => exact .inl rfl
    | @tail y z _ hyz ih =>
      refine .inr ?_
      have hyz : z ∈ t.referred y := hyz
      unfold referred at hyz
      split at hyz
      · cases hyz
      next hbarrier =>
      by_cases hy : y = id
      · exact ⟨z, hy ▸ hyz, .refl⟩
      · obtain ⟨start, hstart, hreach⟩ := (ih hy).resolve_left hy
        refine ⟨start, hstart, hreach.tail ?_⟩
        unfold basesBeyond
        rw [if_neg]
        · exact hyz
        · rintro (he | hext)
          · exact hy he
          · refine hbarrier ?_
            unfold isBarrier
            rw [hext]
            rfl
  have hclosed : Search.Closed (t.basesBeyond id) t.ids := fun y _ z hz => by
    unfold basesBeyond at hz
    split at hz
    · cases hz
    · exact (t.mem_ids z).2 (h.references y z (mem_itemReferences.1 hz)).1
  refine List.mem_filter.2 ⟨(Search.mem_reach_iff hclosed (by simp [ids]) (fun y hy => ?_) x).2
    (hreachable.resolve_left hne), decide_eq_true hne⟩
  exact (t.mem_ids y).2 (h.references id y (mem_itemReferences.1 hy)).1

theorem Regular.inheritedNames_of_path (h : t.Regular) (hid : (t.item id).form = .object)
    (hx : (t.item x).form = .object) (hpath : t.Path id x) (hne : x ≠ id) {name : String}
    (hname : name ∈ t.heldNames x) : name ∈ t.inheritedNames id := by
  unfold inheritedNames
  rw [if_pos hid]
  exact List.mem_flatMap.2
    ⟨x, List.mem_filter.2 ⟨h.mem_allBases hpath hne, decide_eq_true hx⟩, hname⟩

/-- A chain of references is a path. -/
theorem Regular.path_of_follows (h : t.Regular)
    (hxy : Relation.ReflTransGen (Search.Follows t.referenceStep) x y) : t.Path x y := by
  refine Relation.ReflTransGen.mono (fun y z hyz => ?_) _ _ hxy
  obtain ⟨hform, halternatives, _⟩ := (h.items y).suits _ (kind_of_follows hyz)
  unfold referred isBarrier Item.isExtension
  rw [hform, halternatives, itemReferences_of_references (h.references_of_follows hyz)]
  exact List.mem_singleton.2 rfl

/-- What a reference or a list refers to is on a path from it, with all that stands for that. -/
theorem Resolved.path_of_refersTo {b : Blueprint} (h : b.tree.Resolved) {d : Draft} {shape : Shape}
    (hk : (b.tree.item x).kind = some .reference ∨ (b.tree.item x).kind = some .list)
    (href : b.RefersTo d x shape) : ∃ y place, b.tree.Path x y ∧
      d.places.find? y = some place ∧ shape = .ref place := by
  obtain ⟨target, place, htarget, hplace, rfl⟩ := href
  refine ⟨b.standIn target, place, ?_, hplace, rfl⟩
  obtain ⟨hform, halternatives, y, hy⟩ : (b.tree.item x).Suits .reference := by
    rcases hk with hk | hk
    · exact (h.wellFormed.regular.items x).suits .reference hk
    · exact (h.wellFormed.regular.items x).suits .list hk
  rw [target?_of_references hy] at htarget
  cases htarget
  have hstep : target ∈ b.tree.referred x := by
    unfold referred isBarrier Item.isExtension
    rw [hform, halternatives, itemReferences_of_references hy]
    exact List.mem_singleton.2 rfl
  exact .head hstep
    (h.wellFormed.regular.path_of_follows (Blueprint.follows_standIn h target).1)

/-- Unless the item is simple or a variant, what is behind its type are places of items that paths
lead to from it. -/
theorem Resolved.path_of_typed {b : Blueprint} (h : b.tree.Resolved) {d : Draft} {info : TypeInfo}
    {place : TypeInfoId} (htyped : b.Typed d x info) (hs : (b.tree.item x).kind ≠ some .simple)
    (hv : (b.tree.item x).kind ≠ some .variant) (hplace : place ∈ info.shape.behind) :
    ∃ y, d.places.find? y = some place ∧ b.tree.Path x y := by
  have hrefers : ∀ shape, (b.tree.item x).kind = some .reference ∨
      (b.tree.item x).kind = some .list → b.RefersTo d x shape → place ∈ shape.behind →
      ∃ y, d.places.find? y = some place ∧ b.tree.Path x y := fun shape hk hshape hmem => by
    obtain ⟨y, place', hxy, hy, rfl⟩ := h.path_of_refersTo hk hshape
    obtain rfl := List.mem_singleton.1 hmem
    exact ⟨y, hy, hxy⟩
  unfold Blueprint.Typed at htyped
  cases hk : (b.tree.item x).kind with
  | none =>
    rw [hk] at htyped
    cases htyped
  | some k =>
    rw [hk] at htyped
    cases k with
    | simple => exact absurd hk hs
    | variant => exact absurd hk hv
    | fundamental =>
      obtain ⟨_, _, rfl⟩ := htyped
      cases hplace
    | compound =>
      obtain ⟨bases, fields, hbases, _, rfl⟩ := htyped
      obtain ⟨y, hy, hfind⟩ := exists_of_mem_right hbases hplace
      refine ⟨y, hfind, .single ?_⟩
      show y ∈ b.tree.referred x
      unfold referred
      rw [h.wellFormed.regular.isBarrier_of_object
        ((h.wellFormed.regular.items x).suits _ hk)]
      exact hy
    | reference =>
      obtain ⟨shape, rfl, hshape⟩ := htyped
      cases hn : b.narrowed? x with
      | some type =>
        rw [hn] at hshape
        cases hshape
        cases hplace
      | none =>
        rw [hn] at hshape
        exact hrefers shape (.inl hk) hshape hplace
    | list =>
      obtain ⟨shape, rfl, hshape⟩ := htyped
      exact hrefers shape (.inr hk) hshape hplace
    | any | custom | extension =>
      cases htyped
      cases hplace

/-! ### Names of parts -/

section Parts

variable {b : Blueprint}

/-- A part that is no extension has its own name in the scope. -/
theorem heldName?_of_part (h : b.tree.WellFormed)
    (hy : y ∈ b.parts x .member ++ b.parts x .definition) :
    heldName? (b.tree.item y) = (b.tree.item y).effectiveName := by
  obtain ⟨part, hpart, hne, hmem⟩ : ∃ part, b.part? x y = some part ∧ part ≠ .extension ∧
      y ∈ b.builtChildren x := by
    rcases List.mem_append.1 hy with hy | hy
    · obtain ⟨hmem, hpart⟩ := List.mem_filter.1 hy
      exact ⟨.member, of_decide_eq_true hpart, by simp, hmem⟩
    · obtain ⟨hmem, hpart⟩ := List.mem_filter.1 hy
      exact ⟨.definition, of_decide_eq_true hpart, by simp, hmem⟩
  have hw := Blueprint.wanted_child h (Blueprint.mem_builtChildren hmem) (by rw [hpart]; rfl)
  unfold heldName?
  rw [Blueprint.not_extension_of_part hpart hne, (Blueprint.omits_eq_false_iff.1 hw.kept).2.1]
  rfl

/-- The names of what is held are those of members and definitions, and there may be more. -/
theorem names_of_parts (h : b.tree.WellFormed) :
    ((b.tree.heldNames x).Nodup → ((b.parts x .member ++ b.parts x .definition).filterMap
        fun y => (b.tree.item y).effectiveName).Nodup) ∧
      ∀ y ∈ b.parts x .member, ∀ name, (b.tree.item y).effectiveName = some name →
        name ∈ b.tree.heldNames x := by
  have hsub : (((b.builtChildren x).filter fun y => (b.part? x y).isSome).filterMap
      fun y => heldName? (b.tree.item y)).Sublist (b.tree.heldNames x) := by
    exact (List.filter_sublist.trans (Blueprint.builtChildren_sublist b x)).filterMap _
  have hperm := (b.perm_parts x (b.builtChildren x)).filterMap fun y => heldName? (b.tree.item y)
  rw [List.filterMap_append] at hperm
  have hparts : (b.parts x .member ++ b.parts x .definition).filterMap
      (fun y => (b.tree.item y).effectiveName) =
      (b.parts x .member ++ b.parts x .definition).filterMap fun y => heldName? (b.tree.item y) :=
    List.filterMap_congr fun y hy => (heldName?_of_part h hy).symm
  refine ⟨fun hnodup => ?_, fun y hy name hname => ?_⟩
  · rw [hparts]
    exact (List.nodup_append.1 (hperm.nodup_iff.2 (hnodup.sublist hsub))).1
  · refine hsub.subset (hperm.subset (List.mem_append_left _ (List.mem_filterMap.2 ⟨y, ?_, ?_⟩)))
    · exact List.mem_append_left _ hy
    · rw [heldName?_of_part h (List.mem_append_left _ hy)]
      exact hname

end Parts

/-! ### Types in the graph -/

namespace BuiltBy

variable {P : ItemId → Prop} {d d' : Draft} {e : ElementId} {place : TypeInfoId}

/-- What is behind the type of a compound object are the places of items that paths lead to, and
none of these is simple. -/
theorem path_of_behind (h : a.BuiltBy plugin P d d' c) (hr : a.Resolved) (hs : a.Separated)
    (he : e ∈ c.graph.ids) (hk : (c.graph.element e).kind = .compound)
    (hbehind : c.graph.typeInfos.Behind (c.graph.element e).typeInfo place) :
    ∃ x ∈ c.graph.ids, (c.graph.element x).typeInfo = place ∧
      a.Path (d.itemOf e) (d.itemOf x) ∧ (c.graph.element x).kind ≠ .simple := by
  have hcompound : (a.item (d.itemOf e)).kind = some .compound := hk ▸ h.kind_item he
  have hnot : ∀ x ∈ c.graph.ids, a.Path (d.itemOf e) (d.itemOf x) →
      (c.graph.element x).kind ≠ .simple := fun x hx hpath hsimple =>
    (hs.compound _ hcompound _ hpath).2 (.inl (hsimple ▸ h.kind_item hx))
  suffices hfound : ∃ x ∈ c.graph.ids, (c.graph.element x).typeInfo = place ∧
      a.Path (d.itemOf e) (d.itemOf x) by
    obtain ⟨x, hx, hplace, hpath⟩ := hfound
    exact ⟨x, hx, hplace, hpath, hnot x hx hpath⟩
  induction hbehind with
  | refl => exact ⟨e, he, rfl, .refl⟩
  | @tail p q _ hpq ih =>
    obtain ⟨x, hx, rfl, hpath⟩ := ih
    obtain ⟨info, hget, hq⟩ := hpq
    have hsimple := hnot x hx hpath
    have hv : (c.graph.element x).kind ≠ .variant := fun hv => by
      obtain ⟨alternatives, hget'⟩ := h.type_of_variant hx hv
      rw [hget] at hget'
      cases hget'
      cases hq
    obtain ⟨info', htyped, hget'⟩ := h.typed_of_kind hx hsimple hv
    rw [hget] at hget'
    cases hget'
    obtain ⟨y, hy, hxy⟩ := Resolved.path_of_typed (b := a.blueprint plugin) hr htyped
      (fun hk => hsimple (h.kind_eq hx hk)) (fun hk => hv (h.kind_eq hx hk)) hq
    obtain ⟨z, hz, _, rfl, hplace⟩ := h.exists_of_place hy
    exact ⟨z, hz, hplace, hpath.trans hxy⟩

/-- The fields of some named items are those of their elements. -/
theorem fields_eq (h : a.BuiltBy plugin P d d' c) {items : List ItemId} {elements : List ElementId}
    {fields : List (String × TypeInfoId)} (helements : Blueprint.ElementsOf d items elements)
    (hfields : Blueprint.FieldsOf d (items.filterMap fun x =>
      ((a.item x).effectiveName).map fun name => (x, name)) fields) :
    fields = c.graph.fieldsOf elements := by
  unfold Blueprint.ElementsOf at helements
  unfold Graph.fieldsOf
  induction helements generalizing fields with
  | nil =>
    cases hfields
    rfl
  | @cons x e items elements hx _ ih =>
    obtain ⟨he, hitem, hname⟩ := h.element_of_idOf? hx
    have hplace := h.place_eq he
    rw [hitem] at hplace
    rw [List.filterMap_cons] at hfields ⊢
    rw [hname]
    cases heffective : (a.item x).effectiveName with
    | none =>
      rw [heffective] at hfields
      exact ih hfields
    | some name =>
      rw [heffective] at hfields
      cases hfields with
      | @cons _ field _ fields hfield hrest =>
        obtain ⟨key, place⟩ := field
        obtain ⟨rfl, hplace'⟩ := hfield
        rw [hplace] at hplace'
        cases hplace'
        exact congrArg _ (ih hrest)

/-- The names of the elements of some items. -/
theorem names_eq (h : a.BuiltBy plugin P d d' c) {items : List ItemId} {elements : List ElementId}
    (helements : Blueprint.ElementsOf d items elements) :
    (elements.filterMap fun e => (c.graph.element e).name) =
      items.filterMap fun x => (a.item x).effectiveName := by
  unfold Blueprint.ElementsOf at helements
  induction helements with
  | nil => rfl
  | cons hx _ ih =>
    rw [List.filterMap_cons, List.filterMap_cons, (h.element_of_idOf? hx).2.2, ih]

/-- The fields of the type of a compound object, in terms of its children. -/
theorem record_of_compound (h : a.BuiltBy plugin P d d' c) (hw : a.WellFormed)
    (he : e ∈ c.graph.ids) (hk : (c.graph.element e).kind = .compound)
    (hnodup : (a.heldNames (d.itemOf e)).Nodup) :
    ∃ arity record,
      c.graph.typeInfos.get? (c.graph.element e).typeInfo = some ⟨arity, .record record⟩ ∧
      (record.fields.entries = (c.graph.element e).data.members.filterMap fun x =>
        (c.graph.element x).name.map fun name => (name, (c.graph.element x).typeInfo)) ∧
      (((c.graph.element e).data.members ++ (c.graph.element e).data.definitions).filterMap
        fun x => (c.graph.element x).name).Nodup ∧
      ∀ name ∈ record.fields.keys, name ∈ a.heldNames (d.itemOf e) := by
  have hkind : (a.item (d.itemOf e)).kind = some .compound := hk ▸ h.kind_item he
  obtain ⟨hmembers, hdefinitions⟩ := h.elementsOf_parts he
  obtain ⟨bases, fields, _, hfields, hget⟩ := h.type_of_compound he hk
  obtain ⟨hparts, hheld⟩ := names_of_parts (b := a.blueprint plugin) (x := d.itemOf e) hw
  have hnames : (((c.graph.element e).data.members ++
      (c.graph.element e).data.definitions).filterMap
      fun x => (c.graph.element x).name).Nodup := by
    rw [h.names_eq (hmembers.append hdefinitions)]
    exact hparts hnodup
  have hentries := h.fields_eq hmembers hfields
  have hkeys := c.graph.map_fst_fieldsOf (c.graph.element e).data.members
  rw [← hentries] at hkeys
  have hofList : (OrderedMap.ofList fields).entries = fields := by
    refine OrderedMap.entries_ofList ?_
    rw [List.filterMap_append] at hnames
    rw [hkeys]
    exact (List.nodup_append.1 hnames).1
  refine ⟨_, _, hget, hofList.trans hentries, hnames, fun name hname => ?_⟩
  unfold OrderedMap.keys at hname
  rw [hofList, hkeys, h.names_eq hmembers] at hname
  obtain ⟨x, hx, hname⟩ := List.mem_filterMap.1 hname
  exact hheld x hx name hname

end BuiltBy

/-! ### All together -/

/-- **Scopes and types agree.** Unless the plugin brings an attribute of its own for the name, every
compound element of a compiled graph has the children with a name for the fields of its type, no two
of its children and definitions have one name, and none of its fields is one of a base. -/
theorem compile_scopes (h : t.Reachable) (hname : plugin.LeavesName)
    (hok : t.compile plugin options = .ok c) :
    ∀ e ∈ c.graph.ids, ∀ children definitions bases derived,
      (c.graph.element e).data = .compound children definitions bases derived →
      ∃ arity record,
        c.graph.typeInfos.get? (c.graph.element e).typeInfo = some ⟨arity, .record record⟩ ∧
        c.graph.Scoped e children definitions record := by
  obtain ⟨a, d, d', hc, hadmitted, _, hbuilt⟩ := compile_built h hok
  obtain ⟨r, hr, ha, _⟩ := compileTree_stages hc
  obtain ⟨_, hresolved⟩ := resolve_ok h.wellFormed hr
  have halike := (admitted_of_admitAll hresolved ha).1
  have hw := hadmitted.resolved.wellFormed
  have hseparated : a.Separated := ((h.of_resolve hr).alike halike).separated
  have hscopes : ∀ x ∈ c.graph.ids, (c.graph.element x).kind = .compound →
      (a.item (d.itemOf x)).form = .object ∧ (a.heldNames (d.itemOf x)).Nodup ∧
        ∀ n ∈ a.heldNames (d.itemOf x), n ∉ a.inheritedNames (d.itemOf x) := by
    intro x hx hk
    have hkind := hbuilt.kind_item hx
    have hform := (hw.regular.items _).suits _ (hk ▸ hkind)
    refine ⟨hform, scopes_of_admitAll hresolved (namesByText_resolve h.wellFormed hname hr) ha
      (halike.size ▸ lt_size_of_kind hkind) ?_⟩
    rw [← halike.field Item.isExtension fun _ => rfl]
    exact Blueprint.not_extension_of_form hform (by simp)
  intro e he children definitions bases derived hdata
  have hk : (c.graph.element e).kind = .compound := congrArg ElementData.kind hdata
  obtain ⟨hform, hnodup, hdisjoint⟩ := hscopes e he hk
  obtain ⟨arity, record, hget, hfields, hnames, hheld⟩ := hbuilt.record_of_compound hw he hk hnodup
  rw [hdata] at hfields hnames
  refine ⟨arity, record, hget, hfields, hnames, fun place arity' other hbehind hne hother => ?_⟩
  obtain ⟨x, hx, rfl, hpath, hsimple⟩ :=
    hbuilt.path_of_behind hadmitted.resolved hseparated he hk hbehind
  have hkx : (c.graph.element x).kind = .compound := hbuilt.kind_of_record hx hother hsimple
  obtain ⟨hformx, hnodupx, _⟩ := hscopes x hx hkx
  obtain ⟨_, record', hget', _, _, hheld'⟩ := hbuilt.record_of_compound hw hx hkx hnodupx
  rw [hother] at hget'
  cases hget'
  have hitems : d.itemOf x ≠ d.itemOf e := fun hi => hne (by
    have hplace := hbuilt.place_eq hx
    rw [hi, hbuilt.place_eq he] at hplace
    exact (Option.some.inj hplace).symm)
  intro name hmem hmem'
  exact hdisjoint name (hheld name hmem)
    (hw.regular.inheritedNames_of_path hform hformx hpath hitems (hheld' name hmem'))

/-- Two objects that are each other's base, one of them by an alias, where the field of one has
another name than it was declared with. -/
def circularScopes : ItemTree :=
  (((((ofSource "").push root ((Item.object (some "left")).withBase "alias")).push ⟨1⟩
    ((Item.declaration (some "first") "string").withMetadata Key.name (.text "renamed"))).push root
    (Item.declaration (some "alias") "right")).push root
    ((Item.object (some "right")).withBase "left")).push ⟨4⟩
    (Item.declaration (some "second") "int")

/-- The first of them has the field of the other from its base. -/
theorem circularScopes_scoped :
    circularScopes.Reachable ∧
      ({ name := "any", capabilities := .allElements } : Plugin).LeavesName ∧
      ∃ c, circularScopes.compile { name := "any", capabilities := .allElements } {} = .ok c ∧
        c.graph.typeInfos.fieldNames (c.graph.element ⟨1⟩).typeInfo =
          some ["renamed", "second"] ∧
        ∃ children definitions record, c.graph.Scoped ⟨1⟩ children definitions record := by
  have hreachable : circularScopes.Reachable :=
    (((((Reachable.source "").push (p := root) (by decide)
      ((Item.Declared.object (some "left")).withBase "alias")).push (p := ⟨1⟩) (by decide)
      ((Item.Declared.declaration (some "first") "string").withMetadata Key.name
        (.text "renamed"))).push (p := root) (by decide)
      (Item.Declared.declaration (some "alias") "right")).push (p := root) (by decide)
      ((Item.Declared.object (some "right")).withBase "left")).push (p := ⟨4⟩) (by decide)
      (Item.Declared.declaration (some "second") "int")
  have hname : ({ name := "any", capabilities := .allElements } : Plugin).LeavesName :=
    fun _ a ha => by cases ha
  have hfacts : (circularScopes.compile { name := "any", capabilities := .allElements }
      {}).toOption.map (fun c => (c.graph.size, (c.graph.element ⟨1⟩).kind,
        c.graph.typeInfos.fieldNames (c.graph.element ⟨1⟩).typeInfo)) =
      some (6, .compound, some ["renamed", "second"]) := by decide +kernel
  refine ⟨hreachable, hname, ?_⟩
  cases hc : circularScopes.compile { name := "any", capabilities := .allElements } {} with
  | error failure =>
    rw [hc] at hfacts
    cases hfacts
  | ok c =>
    simp only [hc, Except.toOption, Option.map_some, Option.some.injEq, Prod.mk.injEq] at hfacts
    obtain ⟨hsize, hk, hfields⟩ := hfacts
    have he : (⟨1⟩ : ElementId) ∈ c.graph.ids := by simp [Graph.ids, hsize]
    refine ⟨c, rfl, hfields, ?_⟩
    cases hdata : (c.graph.element ⟨1⟩).data with
    | compound children definitions bases derived =>
      obtain ⟨_, record, _, hscoped⟩ :=
        compile_scopes hreachable hname hc ⟨1⟩ he children definitions bases derived hdata
      exact ⟨children, definitions, record, hscoped⟩
    | _ =>
      unfold Element.kind at hk
      rw [hdata] at hk
      cases hk

end ItemTree
end Schemata
