import Schemata.Proofs.Fields
import Schemata.Proofs.Scopes

/-! The fields and the attributes of a simple element.

As long as its name is open, the field of the value of a simple object is under a
placeholder, and those of the attributes come after it. A name for the value that
an attribute has is refused in the end, but nothing keeps an attribute from being
called as the placeholder is. The field of such an attribute takes the place of the
value's, and gets its name. Unless there is one, fields and attributes agree. -/
namespace Schemata

open Blueprint (valuePlaceholder)

/-- The record of a simple element has a field for its value, at a place where no attribute has its
type, and then those of the attributes with a name. The names of these are listed, and all names are
different. -/
def Graph.FieldsAgree (g : Graph) (id : ElementId) : Prop :=
  ∃ attributes valueName arity record place,
    (g.element id).data = .simple attributes valueName ∧
    g.typeInfos.get? (g.element id).typeInfo = some ⟨arity, .record record⟩ ∧
    record.fields.entries = (valueName, place) :: g.fieldsOf attributes ∧
    record.fields.keys = valueName :: (g.element id).attributeNames ∧
    record.fields.keys.Nodup ∧ ∀ x ∈ attributes, (g.element x).typeInfo ≠ place

/-- What the record of a simple element comes to, whatever its attributes are called: that of an
attribute which is called as the placeholder is takes the place of the value's field. -/
structure Graph.Overlaid (g : Graph) (id : ElementId) (attributes : List ElementId)
    (valueName : String) (place : TypeInfoId) : Prop where
  data : (g.element id).data = .simple attributes valueName
  names : (g.element id).attributeNames = (g.fieldsOf attributes).map Prod.fst
  apart : ∀ x ∈ attributes, (g.element x).typeInfo ≠ place
  record : ∃ arity record, g.typeInfos.get? (g.element id).typeInfo =
      some ⟨arity, .record record⟩ ∧
    record.fields.entries = (valueName, ((g.fieldsOf attributes).lookup valuePlaceholder).getD
      place) :: (g.fieldsOf attributes).filter fun field => field.1 ≠ valuePlaceholder

namespace Graph

variable {g : Graph} {id x : ElementId} {attributes : List ElementId} {name valueName : String}
  {place : TypeInfoId}

theorem mem_fieldsOf_iff : (name, place) ∈ g.fieldsOf attributes ↔
    ∃ x ∈ attributes, (g.element x).name = some name ∧ (g.element x).typeInfo = place := by
  unfold fieldsOf
  rw [List.mem_filterMap]
  refine exists_congr fun x => and_congr_right fun _ => ?_
  rw [Option.map_eq_some_iff]
  exact ⟨fun ⟨n, hn, he⟩ => by cases he; exact ⟨hn, rfl⟩, fun ⟨hn, he⟩ => ⟨name, hn, he ▸ rfl⟩⟩

/-- Fields and attributes agree unless an attribute is called as the placeholder is. -/
theorem Overlaid.fieldsAgree_iff (h : g.Overlaid id attributes valueName place) :
    g.FieldsAgree id ↔ valuePlaceholder ∉ (g.element id).attributeNames := by
  obtain ⟨arity, record, hget, hentries⟩ := h.record
  rw [h.names]
  constructor
  · rintro ⟨attributes', valueName', arity', record', first, hdata, hget', hfields, _, _, hapart⟩
      hmem
    rw [h.data] at hdata
    cases hdata
    rw [hget] at hget'
    cases hget'
    -- the first field is that of the attribute, so the attribute's type is there
    rw [hentries] at hfields
    have hfirst := (Prod.mk.inj (List.cons.inj hfields).1).2
    cases hl : (g.fieldsOf attributes).lookup valuePlaceholder with
    | none => exact (OrderedMap.lookup_eq_none_iff _ _).1 hl hmem
    | some q =>
      obtain ⟨x, hx, _, hplace⟩ := mem_fieldsOf_iff.1 (OrderedMap.mem_of_lookup hl)
      rw [hl] at hfirst
      exact hapart x hx (hplace.trans hfirst)
  · intro hfree
    rw [(OrderedMap.lookup_eq_none_iff _ _).2 hfree, List.filter_eq_self.2 fun field hfield => by
      simpa using fun he => hfree (List.mem_map.2 ⟨field, hfield, he⟩)] at hentries
    refine ⟨attributes, valueName, arity, record, place, h.data, hget, hentries, ?_,
      record.fields.nodup_keys, h.apart⟩
    rw [h.names]
    unfold OrderedMap.keys
    rw [hentries]
    rfl

end Graph

namespace ItemTree

open Draft

variable {t a : ItemTree} {plugin : Plugin} {options : Options} {P : ItemId → Prop}
  {c : Compiled} {d d' : Draft} {e : ElementId} {x : ItemId}

namespace BuiltBy

/-- The name of a value is the one that its field has got, or the field is as it was built. -/
theorem record_of_simple (h : a.BuiltBy plugin P d d' c) (he : e ∈ c.graph.ids)
    (hk : (c.graph.element e).kind = .simple) {arity : Arity} {record : ClassShape}
    (hget : d.typeInfos.get? (c.graph.element e).typeInfo = some ⟨arity, .record record⟩) :
    ∃ attributes valueName fields, (c.graph.element e).data = .simple attributes valueName ∧
      c.graph.typeInfos.get? (c.graph.element e).typeInfo =
        some ⟨arity, .record { record with fields }⟩ ∧
      ∀ place l, record.fields.entries = (valuePlaceholder, place) :: l →
        fields.entries = (valueName, place) :: l := by
  have hkind : (d.element e).kind = .simple := (h.kind he).symm.trans hk
  obtain ⟨attributes, valueName, hdata, _⟩ := h.data_of_simple he hk
  have hname : (d'.element e).data.valueName? = some valueName := by
    rw [← (h.element he).data.valueName, hdata]
    rfl
  rw [h.settles.valueName e hkind] at hname
  have hgraph := h.record_of_draft he hget
  by_cases hw : e ∈ d.walk c.root
  · rw [if_pos hw, Option.some.injEq] at hname
    rw [if_pos ⟨hw, hk⟩, hname] at hgraph
    refine ⟨attributes, valueName, _, hdata, hgraph, fun place l hentries => ?_⟩
    have hunused := h.settles.unused e hw (h.mem_ids.1 he) hkind arity record
      (h.typeInfo he ▸ hget)
    rw [hname] at hunused
    exact entries_renameValue hunused hentries
  · rw [if_neg hw] at hname
    rw [if_neg fun hc => hw hc.1] at hgraph
    obtain ⟨_, _, hs⟩ := (h.assembled.described (h.mem_ids.1 he)).shaped
    obtain rfl := hs.valueName valueName hname
    exact ⟨attributes, _, record.fields, hdata, hgraph, fun _ _ hentries => hentries⟩

/-- The names that the element of a simple object lists are those of its members. -/
theorem attributeNames_eq (h : a.BuiltBy plugin P d d' c) (he : e ∈ c.graph.ids)
    (hk : (c.graph.element e).kind = .simple) : (c.graph.element e).attributeNames =
      (c.graph.fieldsOf (c.graph.element e).data.members).map Prod.fst := by
  obtain ⟨_, _, hs⟩ := (h.assembled.described (h.mem_ids.1 he)).shaped
  have hlisted : ∀ y, (a.blueprint plugin).isListed (d.itemOf e) y = true := fun y => by
    unfold Blueprint.isListed
    rw [show ((a.blueprint plugin).tree.item (d.itemOf e)).kind = _ from hk ▸ h.kind_item he]
    rfl
  rw [(h.element he).attributeNames, h.completed.kept.element e, c.graph.map_fst_fieldsOf,
    h.names_eq (h.elementsOf_parts he).1]
  refine hs.names.trans ?_
  unfold Blueprint.listedNames
  rw [List.filter_eq_self.2 fun y _ => hlisted y]
  rfl

theorem overlaid (h : a.BuiltBy plugin P d d' c) (hw : a.WellFormed) (he : e ∈ c.graph.ids)
    (hk : (c.graph.element e).kind = .simple) (hnodup : (a.heldNames (d.itemOf e)).Nodup) :
    ∃ attributes valueName place, c.graph.Overlaid e attributes valueName place := by
  have hi := h.assembled.sound.indexed
  obtain ⟨hmembers, _⟩ := h.elementsOf_parts he
  obtain ⟨info, _, htyped, hget, _⟩ := h.drafted he
  unfold Blueprint.Typed at htyped
  rw [show ((a.blueprint plugin).tree.item (d.itemOf e)).kind = _ from hk ▸ h.kind_item he]
    at htyped
  obtain ⟨place, fields, hplace, hfields, rfl⟩ := htyped
  obtain rfl := h.fields_eq hmembers hfields
  obtain ⟨attributes, valueName, fields', hdata, hgraph, hrenamed⟩ := h.record_of_simple he hk hget
  have hkeys :
      ((c.graph.fieldsOf (c.graph.element e).data.members).map Prod.fst).Nodup := by
    rw [c.graph.map_fst_fieldsOf, h.names_eq hmembers]
    have hparts := (names_of_parts (b := a.blueprint plugin) (x := d.itemOf e) hw).1 hnodup
    rw [List.filterMap_append] at hparts
    exact (List.nodup_append.1 hparts).1
  have hentries := hrenamed _ _ (OrderedMap.entries_ofList_cons hkeys)
  have hlist := h.attributeNames_eq he hk
  rw [hdata] at hentries hlist
  refine ⟨attributes, valueName, place, hdata, hlist, fun x hx hsame => ?_, _, _, hgraph, hentries⟩
  have hmem : x ∈ (c.graph.element e).data.members := by rw [hdata]; exact hx
  obtain ⟨y, _, hy⟩ := exists_of_mem_right hmembers hmem
  have hx' := (h.element_of_idOf? hy).1
  exact hi.place_ne_valuePlace (h.place_eq hx') hplace hsame

end BuiltBy

/-- **Fields and attributes.** Unless the plugin brings an attribute of its own for the name, every
simple element of a compiled graph lists the names of its attributes, and its fields agree with its
attributes exactly if none of these is called as the placeholder for the value is. If one is, its
field is the first one instead of the value's. -/
theorem compile_fields (h : t.Reachable) (hname : plugin.LeavesName)
    (hok : t.compile plugin options = .ok c) : ∀ id ∈ c.graph.simples,
      (∃ attributes valueName place, c.graph.Overlaid id attributes valueName place) ∧
        (c.graph.FieldsAgree id ↔ valuePlaceholder ∉ (c.graph.element id).attributeNames) := by
  obtain ⟨a, d, d', hc, hadmitted, _, hbuilt⟩ := compile_built h hok
  obtain ⟨r, hr, ha, _⟩ := compileTree_stages hc
  obtain ⟨_, hresolved⟩ := resolve_ok h.wellFormed hr
  have halike := (admitted_of_admitAll hresolved ha).1
  have hw := hadmitted.resolved.wellFormed
  intro id hid
  obtain ⟨hmem, hk⟩ := List.mem_filter.1 hid
  have hk := of_decide_eq_true hk
  have hkind := hbuilt.kind_item hmem
  have hform : (a.item (d.itemOf id)).form = .object :=
    (hw.regular.items (d.itemOf id)).suits .simple (hkind.trans (congrArg some hk))
  have hext : (r.item (d.itemOf id)).isExtension = false := by
    rw [← halike.field Item.isExtension fun _ => rfl]
    exact Blueprint.not_extension_of_form hform (by simp)
  have hscope := scopes_of_admitAll hresolved (namesByText_resolve h.wellFormed hname hr) ha
    (halike.size ▸ lt_size_of_kind hkind) hext
  obtain ⟨attributes, valueName, place, hoverlaid⟩ := hbuilt.overlaid hw hmem hk hscope.1
  exact ⟨⟨attributes, valueName, place, hoverlaid⟩, hoverlaid.fieldsAgree_iff⟩

/-- A text with a size, and one with an attribute that is called as the placeholder is. -/
def placeheldTexts : ItemTree :=
  ((((ofSource "").push root ((Item.object (some "sized")).withBase "string")).push ⟨1⟩
    ((Item.declaration (some "size") "int").withRole .scalar)).push root
    ((Item.object (some "placeheld")).withBase "string")).push ⟨3⟩
    ((Item.declaration (some "<fundamental>") "int").withRole .scalar)

/-- The first one has a field for its value and one for its size. The other one has a single field,
where a number is. -/
theorem placeheldTexts_overlaid : placeheldTexts.Reachable ∧
    ({ name := "any", capabilities := .allElements } : Plugin).LeavesName ∧ ∃ c,
    placeheldTexts.compile { name := "any", capabilities := .allElements } {} = .ok c ∧
    (c.graph.element ⟨1⟩).attributeNames = ["size"] ∧ c.graph.FieldsAgree ⟨1⟩ ∧
    (c.graph.element ⟨3⟩).attributeNames = ["<fundamental>"] ∧ ¬c.graph.FieldsAgree ⟨3⟩ := by
  have hsized := (Item.Declared.object (some "sized")).withBase "string"
  have hsize := (Item.Declared.declaration (some "size") "int").withRole .scalar
  have hplaceheld := (Item.Declared.object (some "placeheld")).withBase "string"
  have hattribute := (Item.Declared.declaration (some "<fundamental>") "int").withRole .scalar
  have hreachable : placeheldTexts.Reachable :=
    ((((Reachable.source "").push (p := root) (by decide) hsized).push (p := ⟨1⟩) (by decide)
      hsize).push (p := root) (by decide) hplaceheld).push (p := ⟨3⟩) (by decide) hattribute
  have hname : ({ name := "any", capabilities := .allElements } : Plugin).LeavesName :=
    fun _ _ ha => absurd ha List.not_mem_nil
  have hlists : (placeheldTexts.compile { name := "any", capabilities := .allElements }
      {}).toOption.map (fun c => decide ((⟨1⟩ : ElementId) ∈ c.graph.simples ∧
        (⟨3⟩ : ElementId) ∈ c.graph.simples ∧
        (c.graph.element ⟨1⟩).attributeNames = ["size"] ∧
        (c.graph.element ⟨3⟩).attributeNames = ["<fundamental>"])) = some true := by
    decide +kernel
  obtain ⟨c, hc, hlists⟩ := Option.map_eq_some_iff.1 hlists
  have hc := eq_ok_of_toOption hc
  obtain ⟨hfirst, hsecond, hnames, hnames'⟩ := of_decide_eq_true hlists
  have hall := compile_fields hreachable hname hc
  refine ⟨hreachable, hname, c, hc, hnames, (hall _ hfirst).2.2 ?_, hnames', fun hagree => ?_⟩
  · rw [hnames]
    decide
  · refine (hall _ hsecond).2.1 hagree ?_
    rw [hnames']
    decide

end ItemTree
end Schemata
