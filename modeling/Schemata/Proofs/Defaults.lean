import Schemata.Proofs.Fields

/-! Defaults are literals of the type that they default.

The text that stands under `default` is checked against the scalar of its element while the
draft is being completed. That is done before values have their names, and the scalar is
looked for where the type of the element leads, or where the value of a simple object is.
What the finished graph says of the element is the same scalar, as far as there is one to be
seen from there. But the type of a reference to a simple object leads to the object, and not
to its value, so that nothing is checked on such a reference. -/
namespace Schemata

open Search

/-! ### The scalar of an element -/

/-- The scalar that a place leads to. -/
def TypeInfoTable.scalar? (table : TypeInfoTable) (place : TypeInfoId) : Option ScalarShape :=
  match table.get? (table.resolve place) with
  | some ⟨_, .scalar s⟩ => some s
  | _ => none

/-- The scalar that the field for the value of a simple object leads to. -/
def Graph.valueScalar? (g : Graph) (id : ElementId) : Option ScalarShape :=
  match (g.element id).data, g.typeInfos.get? (g.element id).typeInfo with
  | .simple _ name, some ⟨_, .record c⟩ => (c.fields.find? name).bind g.typeInfos.scalar?
  | _, _ => none

/-- The element that has its type at a place. -/
def Graph.elementAt? (g : Graph) (place : TypeInfoId) : Option ElementId :=
  g.ids.find? fun e => (g.element e).typeInfo = place

/-- The scalar that the type of an element leads to or, where that is the type of a simple object,
the one that the field for the value of the object leads to. -/
def Graph.scalarOf? (g : Graph) (id : ElementId) : Option ScalarShape :=
  (g.typeInfos.scalar? (g.element id).typeInfo).or
    ((g.elementAt? (g.typeInfos.resolve (g.element id).typeInfo)).bind g.valueScalar?)

namespace TypeInfoTable

variable {table : TypeInfoTable} {place : TypeInfoId} {s : ScalarShape}

theorem scalar?_eq_some_iff : table.scalar? place = some s ↔
    ∃ arity, table.get? (table.resolve place) = some ⟨arity, .scalar s⟩ := by
  unfold scalar?
  split
  · next arity s' hget => simp [hget]
  · next hnot => exact iff_of_false nofun fun ⟨arity, hget⟩ => hnot arity _ hget

theorem scalarType?_eq_map : table.scalarType? place = (table.scalar? place).map (·.type) := by
  unfold scalarType? scalar?
  split <;> simp_all

end TypeInfoTable

namespace Draft

variable {d d' : Draft} {id : ElementId} {place : TypeInfoId} {s : ScalarShape}
  {type : Fundamental} {i : Item} {key text : String}

/-- A place that comes to a type has a scalar of that type. -/
theorem ComesTo.exists_scalarAt (h : d.ComesTo place type) (hi : d.Indexed) :
    ∃ s, d.scalarAt place = some s ∧ s.type = type := by
  obtain ⟨s, hs⟩ := Option.isSome_iff_exists.1 ((scalarAt_isSome_iff hi).2 ⟨type, h⟩)
  exact ⟨s, hs, Option.some.inj ((scalarFrom_sound hi hs).unique h)⟩

/-- A text that passes the check of its attribute is a literal of the scalar that is there. -/
theorem readLiteral_of_checkEntry (h : d.checkEntry i id (key, .text text) = .ok ())
    (hcheck : (i.schema.find? key).bind Attribute.elementCheck = some .literalOfType)
    (hs : d.scalarOf id = some s) : ∃ v, s.type.readLiteral text s.constraints = .ok v := by
  unfold checkEntry contextOf at h
  dsimp only at h
  rw [hcheck, hs] at h
  cases hread : s.type.readLiteral text s.constraints with
  | ok v => exact ⟨v, rfl⟩
  | error fault =>
    dsimp only [ElementCheck.run, Value.asText?] at h
    rw [hread] at h
    cases h

end Draft

namespace ItemTree

open Draft

variable {t a r : ItemTree} {plugin : Plugin} {options : Options} {P : ItemId → Prop}
  {c : Compiled} {d d' : Draft} {id : ElementId} {x : ItemId} {place : TypeInfoId}
  {s : ScalarShape} {type : Fundamental}

/-! ### From the draft to the graph -/

namespace BuiltBy

/-- A scalar that a place leads to in the graph is one that the place had in the draft. -/
theorem hasScalar_of_scalar? (h : a.BuiltBy plugin P d d' c) (hbuild : a.build plugin = .ok c)
    (hs : c.graph.typeInfos.scalar? place = some s) : d.HasScalar place s := by
  obtain ⟨arity, hget⟩ := TypeInfoTable.scalar?_eq_some_iff.1 hs
  obtain ⟨d'', hfrom, hgets⟩ := scalarsFrom_of_build hbuild h
  suffices hend : d''.HasScalar place s from hfrom.hasScalar hend
  -- the refs on the way are those of the last draft
  have hpath := c.graph.typeInfos.path_resolve place
  generalize c.graph.typeInfos.resolve place = last at hget hpath
  clear hs
  induction hpath using Relation.ReflTransGen.head_induction_on with
  | refl => exact .here ((hgets _).symm.trans hget)
  | @head p q hpq _ ih =>
    obtain ⟨⟨arity', shape⟩, hp, href⟩ := Option.bind_eq_some_iff.1 hpq
    cases shape with
    | ref target =>
      cases href
      exact .behind ((hgets p).symm.trans hp) ih
    | _ => cases href

/-- A place leads in the graph to the scalar that it had in the draft. -/
theorem scalar?_of_scalarAt (h : a.BuiltBy plugin P d d' c) (hbuild : a.build plugin = .ok c)
    (hs : d.scalarAt place = some s) : c.graph.typeInfos.scalar? place = some s := by
  have hi := h.assembled.sound.indexed
  have htype := h.scalarType?_eq_some_iff.2 (scalarFrom_sound hi hs)
  rw [TypeInfoTable.scalarType?_eq_map] at htype
  obtain ⟨s', hs', _⟩ := Option.map_eq_some_iff.1 htype
  rw [hs', (h.hasScalar_of_scalar? hbuild hs').unique hi (hasScalar_of_scalarFrom hs)]

theorem elementAt?_typeInfo (h : a.BuiltBy plugin P d d' c) (hid : id ∈ c.graph.ids) :
    c.graph.elementAt? (c.graph.element id).typeInfo = some id := by
  unfold Graph.elementAt?
  cases hfind : c.graph.ids.find? fun e =>
      (c.graph.element e).typeInfo = (c.graph.element id).typeInfo with
  | none =>
    have hnot := List.find?_eq_none.1 hfind id hid
    simp at hnot
  | some e =>
    have hsame := List.find?_some hfind
    rw [h.closed.distinct e (List.mem_of_find?_eq_some hfind) id hid (of_decide_eq_true hsame)]

/-- The type of a simple object leads to nothing but itself. -/
theorem elementAt?_simple (h : a.BuiltBy plugin P d d' c) (hid : id ∈ c.graph.ids)
    (hk : (c.graph.element id).kind = .simple) :
    c.graph.typeInfos.scalar? (c.graph.element id).typeInfo = none ∧
      c.graph.elementAt? (c.graph.typeInfos.resolve (c.graph.element id).typeInfo) = some id := by
  obtain ⟨_, _, shape, _, hget, _⟩ := h.type_of_simple hid hk
  have hself : c.graph.typeInfos.resolve (c.graph.element id).typeInfo =
      (c.graph.element id).typeInfo :=
    TypeInfoTable.resolve_eq_self (by simp [TypeInfoTable.refAt, hget, Shape.ref?])
  refine ⟨by simp [TypeInfoTable.scalar?, hself, hget], ?_⟩
  rw [hself]
  exact h.elementAt?_typeInfo hid

/-- The scalar that is seen from an element in the draft is that of the element in the graph, unless
a member has taken the place of the value. -/
theorem scalarOf?_of_scalarOf (h : a.BuiltBy plugin P d d' c) (hbuild : a.build plugin = .ok c)
    (hid : id ∈ c.graph.ids) (hs : d.scalarOf id = some s)
    (hmember : (c.graph.element id).kind = .simple →
      (a.blueprint plugin).valueMember? (d.itemOf id) = none) :
    c.graph.scalarOf? id = some s := by
  by_cases hk : (c.graph.element id).kind = .simple
  · obtain ⟨hnone, hfind⟩ := h.elementAt?_simple hid hk
    have hkind := h.kind hid
    rw [hk] at hkind
    obtain ⟨place, hplace, hfield⟩ :=
      h.assembled.valueField (h.mem_ids.1 hid) hkind.symm
    obtain ⟨attributes, name, arity, shape, hdata, hget, hname⟩ := h.valueField hid hfield
    unfold Blueprint.valueFieldPlace? at hplace
    rw [hmember hk] at hplace
    have hscalar : d.scalarAt place = some s := by
      have hplace : d.valuePlaces.find? (d.draftElement id).item = some place := hplace
      unfold scalarOf at hs
      split at hs
      · rwa [hplace] at hs
      · next hnot =>
        obtain ⟨attributes', name', _, _, hdata', _⟩ := hfield
        exact absurd hdata' (hnot attributes' name')
    unfold Graph.scalarOf? Graph.valueScalar?
    rw [hnone, hfind, Option.none_or, Option.bind_some, hdata, hget]
    dsimp only
    rw [hname]
    exact h.scalar?_of_scalarAt hbuild hscalar
  · have hscalar : d.scalarAt (c.graph.element id).typeInfo = some s := by
      rw [h.typeInfo hid]
      unfold scalarOf at hs
      split at hs
      · next attributes name hdata =>
        refine absurd ((h.kind hid).trans ?_) hk
        unfold Element.kind
        rw [hdata]
        rfl
      · exact hs
    unfold Graph.scalarOf?
    rw [h.scalar?_of_scalarAt hbuild hscalar, Option.some_or]

end BuiltBy

/-! ### What is seen of a default's type -/

/-- From its element the scalar of an item can be seen: the chain of references from the item ends
at a fundamental type, or the item is a plainly valued object itself, and no member of it takes the
place of the value. -/
def SeesScalar (t : ItemTree) (plugin : Plugin) (x : ItemId) : Prop :=
  t.endKind x = .ok (some .fundamental) ∨ (t.item x).kind = some .simple ∧
    t.PlainlyValued x ∧ (t.blueprint plugin).valueMember? x = none

theorem SeesScalar.of_simple (h : t.SeesScalar plugin x) (hk : (t.item x).kind = some .simple) :
    t.PlainlyValued x ∧ (t.blueprint plugin).valueMember? x = none := by
  rcases h with hend | h
  · have hself : t.chainEnd x = .ok (.item x) :=
      chainEnd_eq_ok_iff.2 (.halt (referenceStep_of_ne (by simp [hk])))
    unfold endKind at hend
    rw [hself] at hend
    cases hk.symm.trans (Except.ok.inj hend)
  · exact h.2

theorem BuiltBy.exists_scalarOf (h : a.BuiltBy plugin P d d' c) (hr : a.Resolved)
    (hid : id ∈ c.graph.ids) (htype : a.fundamentalOf (d.itemOf id) = some type)
    (hsees : a.SeesScalar plugin (d.itemOf id)) :
    ∃ s, d.scalarOf id = some s ∧ s.type = type := by
  have hi := h.assembled.sound.indexed
  have hlt := h.mem_ids.1 hid
  unfold scalarOf
  split
  · next attributes name hdata =>
    have hk : (c.graph.element id).kind = .simple := by
      rw [h.kind hid, Element.kind, hdata]
      rfl
    have hkind := (h.kind_item hid).trans (congrArg some hk)
    have hplace := h.find?_valueOf (List.mem_filter.2 ⟨hid, decide_eq_true hk⟩)
    rw [show d.valuePlaces.find? (d.draftElement id).item = _ from hplace]
    exact (h.assembled.comesTo_of_plainlyValued h.held hr (hsees.of_simple hkind).1 hplace
      htype).exists_scalarAt hi
  · next hnot =>
    rcases hsees with hend | ⟨hk, _⟩
    · obtain ⟨last, hlast, _⟩ := hr.ends (d.itemOf id)
      unfold endKind at hend
      rw [chainEnd_eq_ok_iff.2 hlast] at hend
      have hkl : (a.item last).kind = some .fundamental := Except.ok.inj hend
      have hends := (hr.wellFormed.regular.ends_fundamental_iff hlast).1
        (fundamentalOf_eq_some_iff.1 htype)
      have hnamed := hends.unique (.halt (fundamentalStep_of_fundamental hkl))
      exact (h.assembled.comesTo_of_chain h.held hr hlast hkl hnamed.symm
        (hi.place id hlt)).exists_scalarAt hi
    · have hkd : (d.element id).kind = .simple := (h.kind hid).symm.trans (h.kind_eq hid hk)
      obtain ⟨_, _, attributes, name, _, _, hdata, _⟩ := h.assembled.valueField hlt hkd
      exact absurd hdata (hnot attributes name)

/-- What wraps a fundamental type is not the root. -/
theorem Reachable.ne_root_of_fundamentalOf (h : t.Reachable) (hr : t.Resolved)
    (htype : t.fundamentalOf x = some type) : x ≠ root := by
  rintro rfl
  have hform := hr.wellFormed.rooted.rootForm
  have hsuits := (hr.wellFormed.regular.items root).suits
  rcases kind_of_ends (fundamentalOf_eq_some_iff.1 htype) with hk | hk | hk
  · have hdeclared := (hsuits _ hk).1
    simp [hform] at hdeclared
  · have hdeclared := (hsuits _ hk).1
    simp [hform] at hdeclared
  · exact h.root_not_simple hk

/-! ### All together -/

/-- **Defaults are literals.** If the item of an element need not occur, is no collection and wraps
a fundamental type, the scalar of which can be seen from the element, then this is the scalar of the
element in the compiled graph, and a text that the element has for `default` is a literal of the
type under the constraints of the scalar. -/
theorem compile_defaults (h : t.Reachable) (hok : t.compile plugin options = .ok c) :
    ∃ a, t.compileTree plugin options = .ok (a, c) ∧ ∀ id ∈ c.graph.ids, ∀ arity,
      (a.item (a.origin plugin id)).arity = some arity → arity.isOptional →
      arity.isCollection = false →
      ∀ type text, a.fundamentalOf (a.origin plugin id) = some type →
      (c.graph.element id).metadata.find? "default" = some (.text text) →
      a.SeesScalar plugin (a.origin plugin id) →
      ∃ s v, c.graph.scalarOf? id = some s ∧ s.type = type ∧
        type.readLiteral text s.constraints = .ok v := by
  obtain ⟨a, d, d', hc, hadmitted, _, hbuilt⟩ := compile_built h hok
  obtain ⟨r, hr, ha, hbuild⟩ := compileTree_stages hc
  obtain ⟨_, hresolved⟩ := resolve_ok h.wellFormed hr
  have hretyped := retyped_admitAll ha
  refine ⟨a, hc, fun id hid arity harity hoptional hsingle type text htype hentry hsees => ?_⟩
  rw [hbuilt.origin_eq hid] at harity htype hsees
  obtain ⟨s, hs, rfl⟩ := hbuilt.exists_scalarOf hadmitted.resolved hid htype hsees
  -- an element off the walk from the root has no metadata
  by_cases hw : id ∈ d.walk c.root
  · have hlt := hbuilt.mem_ids.1 hid
    rw [hretyped.alike.fundamentalOf] at htype
    have hne := (h.of_resolve hr).ne_root_of_fundamentalOf hresolved htype
    have harity' : (r.item (d.itemOf id)).arity = some arity :=
      (hretyped.field Item.arity (fun _ _ _ => rfl) _).symm.trans harity
    have hattribute := find?_arityAttribute h.wellFormed hr
      (hasSchema_of_fundamentalOf hresolved hne htype).2.2.2
      (b := { name := "default", type := .string, elementCheck := some .literalOfType })
      (by simp [arityAttributes, harity', hsingle, hoptional, optionalAttributes])
    rw [← hretyped.field Item.schema fun _ _ _ => rfl] at hattribute
    rw [hbuilt.metadata_eq hid hw, OrderedMap.find?_eq_some_iff] at hentry
    have htaken := (EntriesTaken.refl hbuilt.assembled.sound.indexed).withEntries a id
    obtain ⟨v, hv⟩ := readLiteral_of_checkEntry
      (hbuilt.settles.checks id hw hlt _ hentry) (by rw [hattribute]; rfl)
      ((htaken.scalarOf id).trans hs)
    refine ⟨s, v, hbuilt.scalarOf?_of_scalarOf hbuild hid hs fun hk => ?_, rfl, hv⟩
    exact (hsees.of_simple ((hbuilt.kind_item hid).trans (congrArg some hk))).2
  · rw [hbuilt.metadata_eq_empty hid hw] at hentry
    cases hentry

/-- A label that is red unless something else is said, and an optional count by a reference to a
simple object. -/
def optionalThings : ItemTree :=
  (((ofSource "").push root
    ((((Item.declaration (some "label") "string").withArity .optional).withMetadata "max_length"
      (.int 5)).withMetadata "default" (.text "red"))).push root
    ((Item.object (some "count")).withBase "int")).push root
    (((Item.declaration (some "maybe") "count").withArity .optional).withMetadata "default"
      (.text "many"))

/-- The default of the label is a literal. That of the count is none of a number, but is not
checked. -/
theorem optionalThings_defaults : optionalThings.Reachable ∧ ∃ a c,
    optionalThings.compileTree { name := "any", capabilities := .allElements } {} = .ok (a, c) ∧
    (∃ s v, c.graph.scalarOf? ⟨1⟩ = some s ∧ s.type = .string ∧
      Fundamental.string.readLiteral "red" s.constraints = .ok v) ∧
    ¬a.SeesScalar { name := "any", capabilities := .allElements }
      (a.origin { name := "any", capabilities := .allElements } ⟨3⟩) ∧
    (c.graph.element ⟨3⟩).metadata.find? "default" = some (.text "many") ∧
    ∃ s, c.graph.scalarOf? ⟨3⟩ = some s ∧ s.type = .int ∧
      ∀ v, Fundamental.int.readLiteral "many" s.constraints ≠ .ok v := by
  have hlabel := (((Item.Declared.declaration (some "label") "string").withArity
    .optional).withMetadata "max_length" (.int 5)).withMetadata "default" (.text "red")
  have hcount := (Item.Declared.object (some "count")).withBase "int"
  have hmaybe := ((Item.Declared.declaration (some "maybe") "count").withArity
    .optional).withMetadata "default" (.text "many")
  have hreachable : optionalThings.Reachable :=
    (((Reachable.source "").push (p := root) (by decide) hlabel).push (p := root) (by decide)
      hcount).push (p := root) (by decide) hmaybe
  have hlabelFacts : (optionalThings.compileTree { name := "any", capabilities := .allElements }
      {}).toOption.map (fun r =>
        let x := r.1.origin { name := "any", capabilities := .allElements } ⟨1⟩
        ((r.2.graph.size, (r.1.item x).arity, r.1.fundamentalOf x),
          ((r.2.graph.element ⟨1⟩).metadata.find? "default").bind Value.asText?,
          (r.1.endKind x).toOption)) =
      some ((4, some .optional, some .string), some "red", some (some .fundamental)) := by
    decide +kernel
  have hmaybeFacts : (optionalThings.compileTree { name := "any", capabilities := .allElements }
      {}).toOption.map (fun r =>
        let x := r.1.origin { name := "any", capabilities := .allElements } ⟨3⟩
        ((((r.2.graph.element ⟨3⟩).metadata.find? "default").bind Value.asText?,
          (r.1.item x).kind, (r.1.endKind x).toOption),
          (r.2.graph.scalarOf? ⟨3⟩).map fun s =>
            (s.type, (Fundamental.int.readLiteral "many" s.constraints).toOption.isSome))) =
      some ((some "many", some .reference, some (some .simple)), some (.int, false)) := by
    decide +kernel
  obtain ⟨⟨a, c⟩, hc, hfacts⟩ := Option.map_eq_some_iff.1 hlabelFacts
  rw [hc] at hmaybeFacts
  simp only [Option.map_some, Option.some.injEq, Prod.mk.injEq] at hfacts hmaybeFacts
  obtain ⟨⟨hsize, harity, htype⟩, htext, hend⟩ := hfacts
  obtain ⟨⟨hmany, hreference, hsimple⟩, hscalar⟩ := hmaybeFacts
  have hc := eq_ok_of_toOption hc
  have hok : optionalThings.compile { name := "any", capabilities := .allElements } {} =
      .ok c := by
    unfold compile
    rw [hc]
    rfl
  obtain ⟨red, hred, hvalue⟩ := Option.bind_eq_some_iff.1 htext
  obtain rfl := Value.eq_text_of_asText? hvalue
  obtain ⟨many, hmany, hvalue⟩ := Option.bind_eq_some_iff.1 hmany
  obtain rfl := Value.eq_text_of_asText? hvalue
  obtain ⟨a', hc', hdefaults⟩ := compile_defaults hreachable hok
  rw [hc] at hc'
  cases hc'
  refine ⟨hreachable, a, c, hc, hdefaults ⟨1⟩ (by simp [Graph.ids, hsize]) _ harity (by decide)
    (by decide) _ _ htype hred (.inl (eq_ok_of_toOption hend)), ?_, hmany, ?_⟩
  · rintro (hsees | ⟨hkind, _⟩)
    · simp [hsees, Except.toOption] at hsimple
    · simp [hreference] at hkind
  · obtain ⟨s, hs, hfault⟩ := Option.map_eq_some_iff.1 hscalar
    obtain ⟨hint, hnone⟩ := Prod.mk.inj hfault
    refine ⟨s, hs, hint, fun v hv => ?_⟩
    rw [hv] at hnone
    cases hnone

end ItemTree
end Schemata
