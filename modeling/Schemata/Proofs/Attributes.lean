import Schemata.Proofs.Defaults

/-! Attributes are single scalars.

An attribute is admitted if the references it goes through end at a fundamental
type and if it occurs at most once. In a finished graph the type of its element
says the same: its own arity has one for its maximum, whatever the arities of the
items it refers to are, and the links it starts end at a scalar. -/
namespace Schemata

open Search

/-- The type of an element occurs once at most and leads to a scalar. -/
structure Graph.IsSingleScalar (g : Graph) (id : ElementId) : Prop where
  single : ∃ arity shape, g.typeInfos.get? (g.element id).typeInfo = some ⟨arity, shape⟩ ∧
    arity.max = some 1
  scalar : ∃ arity s, g.typeInfos.get? (g.typeInfos.resolve (g.element id).typeInfo) =
    some ⟨arity, .scalar s⟩

namespace ItemTree

variable {t a : ItemTree} {plugin : Plugin} {options : Options} {P : ItemId → Prop}
  {c : Compiled} {d d' : Draft} {id child : ElementId} {x : ItemId}

/-! ### What the admission checks -/

theorem isSingle_of_checkScalar (h : t.checkScalar x = .ok ()) (hrole : (t.item x).role = .scalar) :
    ((t.item x).arity.getD .one).isSingle := by
  unfold checkScalar at h
  dsimp only at h
  rw [if_pos hrole] at h
  obtain ⟨kind, _, h⟩ := bind_eq_ok h
  split at h
  · cases h
  · split at h
    · cases h
    · next hsingle => simpa using hsingle

/-- The attributes of an admitted tree occur once at most. -/
theorem isSingle_admitAll (hi : ∀ id, (t.item id).isIgnored → (t.item id).isExtension)
    (h : t.admitAll plugin options = .ok a) (hx : x ∈ t.walk)
    (hext : (t.item x).isExtension = false) (hrole : (t.item x).role = .scalar) :
    ((a.item x).arity.getD .one).isSingle := by
  have hpass : ∀ t₁ t₂ t₃ x, t.Retyped t₁ → True → Checked plugin options t₁ x t₂ t₃ →
      (t.item x).role = .scalar → ((t.item x).arity.getD .one).isSingle :=
    fun t₁ t₂ _ x hr _ hc hrole => by
      have hall := hr.trans (retyped_admitEntries hc.entries)
      have hsingle := isSingle_of_checkScalar hc.scalar
        ((hall.field Item.role (fun _ _ _ => rfl) x).trans hrole)
      rwa [hall.field Item.arity (fun _ _ _ => rfl) x] at hsingle
  obtain ⟨hr, _, hall⟩ := admitAll_each hi trivial (fun _ _ _ _ _ _ => trivial) hpass h
  rw [hr.field Item.arity (fun _ _ _ => rfl) x]
  exact hall x hx hext hrole

/-! ### What the graph says -/

namespace BuiltBy

/-- The element of an attribute that occurs once at most is a single scalar. -/
theorem isSingleScalar (h : a.BuiltBy plugin P d d' c) (ha : a.Admitted) (hid : id ∈ c.graph.ids)
    (hext : (a.item (d.itemOf id)).isExtension = false)
    (hrole : (a.item (d.itemOf id)).role = .scalar)
    (hsingle : ((a.item (d.itemOf id)).arity.getD .one).isSingle) :
    c.graph.IsSingleScalar id := by
  have hkind := h.kind_item hid
  have hne : (c.graph.element id).kind ≠ .extension := fun hk => by
    have hform := (ha.resolved.wellFormed.regular.items _).suits _ (hk ▸ hkind)
    exact of_decide_eq_false hext hform
  obtain ⟨shape, hget⟩ := h.arity_eq hid hne
  obtain ⟨last, type, hlast, hkl, htype⟩ := ha.ends_of_attribute (lt_size_of_kind hkind) hext hrole
  have hplace := h.assembled.sound.indexed.place id (h.mem_ids.1 hid)
  have hcomes := h.assembled.comesTo_of_chain h.held ha.resolved hlast hkl htype hplace
  rw [← h.scalarType?_eq_some_iff, TypeInfoTable.scalarType?_eq_map,
    Option.map_eq_some_iff] at hcomes
  obtain ⟨s, hs, _⟩ := hcomes
  obtain ⟨arity, hscalar⟩ := TypeInfoTable.scalar?_eq_some_iff.1 hs
  rw [← h.typeInfo hid] at hscalar
  exact ⟨⟨_, shape, hget, of_decide_eq_true hsingle⟩, arity, s, hscalar⟩

/-- A member of an element is built from a member of its item. -/
theorem member_item (h : a.BuiltBy plugin P d d' c) (hid : id ∈ c.graph.ids)
    (hchild : child ∈ (c.graph.element id).data.members) : child ∈ c.graph.ids ∧
      d.itemOf child ∈ (a.blueprint plugin).parts (d.itemOf id) .member := by
  obtain ⟨item, hitem, hidOf⟩ := exists_of_mem_right (h.elementsOf_parts hid).1 hchild
  obtain ⟨hmem, heq, _⟩ := h.element_of_idOf? hidOf
  exact ⟨hmem, heq ▸ hitem⟩

end BuiltBy

/-- **Attributes are single scalars.** After a compilation every attribute of a simple element, and
every child of a compound one that is an attribute's, has a type whose own arity has the maximum
one and which leads to a scalar. -/
theorem compile_attributes (h : t.Reachable) (hok : t.compile plugin options = .ok c) :
    ∃ a, t.compileTree plugin options = .ok (a, c) ∧ ∀ id ∈ c.graph.ids,
      ∀ child ∈ (c.graph.element id).data.members,
        ((c.graph.element id).kind = .simple ∨
          (a.item (a.origin plugin child)).role = .scalar) →
        c.graph.IsSingleScalar child := by
  obtain ⟨a, d, d', hc, ha, _, hbuilt⟩ := compile_built h hok
  refine ⟨a, hc, fun id hid child hchild hattribute => ?_⟩
  obtain ⟨hmem, hmember⟩ := hbuilt.member_item hid hchild
  rw [hbuilt.origin_eq hmem] at hattribute
  have hext := Blueprint.not_extension_of_part (of_decide_eq_true (List.mem_filter.1 hmember).2)
    (by simp)
  have hrole : (a.item (d.itemOf child)).role = .scalar := by
    rcases hattribute with hk | hrole
    · exact ha.attribute_of_member ((hbuilt.kind_item hid).trans (congrArg some hk)) hmember
    · exact hrole
  obtain ⟨r, hr, hadmit, _⟩ := compileTree_stages hc
  obtain ⟨_, hresolved⟩ := resolve_ok h.wellFormed hr
  have hw := hresolved.wellFormed
  have hretyped := retyped_admitAll hadmit
  have hwalk : d.itemOf child ∈ r.walk := hw.rooted.mem_walk_iff.2
    (hretyped.size ▸ lt_size_of_kind (hbuilt.kind_item hmem))
  have hsingle := isSingle_admitAll (fun x => (hw.regular.items x).ignored) hadmit hwalk
    ((hretyped.field Item.isExtension (fun _ _ _ => rfl) _).symm.trans hext)
    ((hretyped.field Item.role (fun _ _ _ => rfl) _).symm.trans hrole)
  exact hbuilt.isSingleScalar ha hmem hext hrole hsingle

/-- A tag out of any number of names, and a note that is an alias of a label. -/
def labelledThings : ItemTree :=
  ((((((ofSource "").push root
    ((Item.declaration (some "names") "string").withArity .zeroOrMore)).push root
    ((Item.object (some "leaf")).withBase "string")).push ⟨2⟩
    (((Item.declaration (some "tag") "names").withArity .optional).withRole .scalar)).push root
    (Item.declaration (some "label") "string")).push root
    (Item.object (some "thing"))).push ⟨5⟩
    ((Item.declaration (some "note") "label").withRole .scalar)

/-- The tag of a simple element and the note of a compound one are single scalars. -/
theorem labelledThings_single : labelledThings.Reachable ∧ ∃ a c,
    labelledThings.compileTree { name := "any", capabilities := .allElements } {} = .ok (a, c) ∧
    c.graph.IsSingleScalar ⟨3⟩ ∧
    (a.item (a.origin { name := "any", capabilities := .allElements } ⟨6⟩)).role = .scalar ∧
    c.graph.IsSingleScalar ⟨6⟩ := by
  have hnames := (Item.Declared.declaration (some "names") "string").withArity .zeroOrMore
  have hleaf := (Item.Declared.object (some "leaf")).withBase "string"
  have htag :=
    ((Item.Declared.declaration (some "tag") "names").withArity .optional).withRole .scalar
  have hlabel := Item.Declared.declaration (some "label") "string"
  have hthing := Item.Declared.object (some "thing")
  have hnote := (Item.Declared.declaration (some "note") "label").withRole .scalar
  have hreachable : labelledThings.Reachable :=
    ((((((Reachable.source "").push (p := root) (by decide) hnames).push (p := root) (by decide)
      hleaf).push (p := ⟨2⟩) (by decide) htag).push (p := root) (by decide) hlabel).push
      (p := root) (by decide) hthing).push (p := ⟨5⟩) (by decide) hnote
  have hvalues : (labelledThings.compileTree { name := "any", capabilities := .allElements }
      {}).toOption.map (fun r => (decide ((⟨2⟩ : ElementId) ∈ r.2.graph.simples ∧
          (⟨3⟩ : ElementId) ∈ (r.2.graph.element ⟨2⟩).data.members ∧
          (⟨5⟩ : ElementId) ∈ r.2.graph.ids ∧
          (⟨6⟩ : ElementId) ∈ (r.2.graph.element ⟨5⟩).data.members ∧
          (r.1.item (r.1.origin { name := "any", capabilities := .allElements } ⟨6⟩)).role =
            .scalar))) = some true := by decide +kernel
  obtain ⟨⟨a, c⟩, hc, hvalues⟩ := Option.map_eq_some_iff.1 hvalues
  have hc := eq_ok_of_toOption hc
  obtain ⟨hsimple, htag, hcompound, hnote, hrole⟩ := of_decide_eq_true hvalues
  obtain ⟨hleaf, hkind⟩ := List.mem_filter.1 hsimple
  obtain ⟨a', hc', hall⟩ := compile_attributes hreachable (compile_of_compileTree hc)
  rw [hc] at hc'
  cases hc'
  exact ⟨hreachable, a, c, hc, hall _ hleaf _ htag (.inl (of_decide_eq_true hkind)), hrole,
    hall _ hcompound _ hnote (.inr hrole)⟩

end ItemTree
end Schemata
