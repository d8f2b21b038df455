import Schemata.Proofs.Coverage
import Schemata.Proofs.Draft.Wrapping

/-! The values of simple objects in finished graphs.

An item wraps a fundamental type, and in a finished graph the field for the value
of its element leads to a scalar. The two agree exactly if the object is
`ScalarValued`: the field is that of the value, which is where the type is, or it
is that of an attribute which took its place and wraps the same type. -/
namespace Schemata

open Search

/-! ### Scalars in finished graphs -/

/-- The type of the scalar that a place leads to. -/
def TypeInfoTable.scalarType? (table : TypeInfoTable) (place : TypeInfoId) : Option Fundamental :=
  match table.get? (table.resolve place) with
  | some ⟨_, .scalar s⟩ => some s.type
  | _ => none

/-- The type of the scalar that the field for the value of a simple object leads to. -/
def Graph.valueType? (g : Graph) (id : ElementId) : Option Fundamental :=
  match (g.element id).data, g.typeInfos.get? (g.element id).typeInfo with
  | .simple _ name, some ⟨_, .record c⟩ => (c.fields.find? name).bind g.typeInfos.scalarType?
  | _, _ => none

theorem TypeInfoArena.resolveFrom_congr {arena arena' : TypeInfoArena}
    (h : ∀ place, arena.get? place = arena'.get? place) (bound : Nat) (place : TypeInfoId) :
    arena.resolveFrom bound place = arena'.resolveFrom bound place := by
  induction bound generalizing place with
  | zero => rfl
  | succ bound ih =>
    unfold resolveFrom refAt
    rw [h place]
    cases (arena'.get? place).bind fun info => info.shape.ref? with
    | none => rfl
    | some target => exact ih target

namespace ItemTree

variable {t a : ItemTree} {plugin : Plugin} {options : Options} {c : Compiled}

namespace BuiltBy

open Draft Blueprint

variable {P : ItemId → Prop} {d d' : Draft} {id : ElementId} {item : ItemId} {place : TypeInfoId}
  {type : Fundamental}

theorem held (h : t.BuiltBy plugin P d d' c) : Held d :=
  ⟨fun _ _ => h.idOf?_of_place, fun _ _ => h.idOf?_of_valuePlace⟩

/-- Nothing is narrowed any more, as every place is filled. -/
theorem unnarrowed (h : t.BuiltBy plugin P d d' c) (place : TypeInfoId) :
    d'.narrowings.find? place = none := by
  cases hn : d'.narrowings.find? place with
  | none => rfl
  | some n =>
    obtain ⟨hnone, _, item, hitem⟩ := h.completed.indexed.narrowed place n hn
    have hfilled := h.filled (h.completed.indexed.valuePlace_lt hitem)
    rw [hnone] at hfilled
    cases hfilled

theorem resolve_eq (h : t.BuiltBy plugin P d d' c) (place : TypeInfoId) :
    c.graph.typeInfos.resolve place = d'.typeInfos.resolve place := by
  rw [TypeInfoTable.resolve_eq]
  unfold TypeInfoArena.resolve
  have hsize : c.graph.typeInfos.toArena.size = d'.typeInfos.size := by
    rw [← h.closes.typeInfos]
    simp [TypeInfoArena.size, TypeInfoTable.toArena, TypeInfoTable.size]
  rw [hsize]
  refine TypeInfoArena.resolveFrom_congr (fun q => ?_) _ _
  rw [TypeInfoTable.get?_toArena, h.closes.types]

/-- A place of the graph leads to the scalar that it came to all along. -/
theorem scalarType?_eq_some_iff (h : t.BuiltBy plugin P d d' c) :
    c.graph.typeInfos.scalarType? place = some type ↔ d.ComesTo place type := by
  rw [← h.completed.kept.comesTo]
  unfold TypeInfoTable.scalarType?
  rw [h.resolve_eq, h.closes.types]
  constructor
  · intro hs
    split at hs
    · next arity s hget =>
      cases hs
      refine (ends_resolveFrom (d'.typeInfos.size + 1) place).1 (.halt ?_)
      unfold scalarStep
      rw [show d'.typeInfos.get? (d'.typeInfos.resolveFrom _ place) = _ from hget]
    · cases hs
  · intro hc
    have hend : d'.ComesTo (d'.typeInfos.resolve place) type := (ends_resolveFrom _ place).2 hc
    obtain ⟨arity, s, hget, rfl⟩ :=
      scalar_of_unnarrowed hend (refAt_resolve hc) (h.unnarrowed _)
    rw [hget]

/-- The field for a value leads to the scalar of the value, or to that of a member that took its
name. -/
theorem valueType?_eq_some_iff (h : t.BuiltBy plugin P d d' c) (hid : id ∈ c.graph.simples) :
    c.graph.valueType? id = some type ↔
      ∃ place, (t.blueprint plugin).valueFieldPlace? d (d.itemOf id) = some place ∧
        d.ComesTo place type := by
  have hmem := (List.mem_filter.1 hid).1
  have hkind := of_decide_eq_true (List.mem_filter.1 hid).2
  rw [h.kind hmem] at hkind
  obtain ⟨place, hplace, hfield⟩ := h.assembled.valueField (h.mem_ids.1 hmem) hkind
  obtain ⟨attributes, name, arity, shape, hdata, hget, hfind⟩ := h.valueField hmem hfield
  unfold Graph.valueType?
  rw [hdata, hget]
  dsimp only
  rw [hfind, Option.bind_some, h.scalarType?_eq_some_iff, hplace]
  exact ⟨fun hc => ⟨place, rfl, hc⟩, fun ⟨_, hq, hc⟩ => Option.some.inj hq ▸ hc⟩

end BuiltBy

/-! ### Attributes -/

open Blueprint in
/-- The members of a simple object are its attributes. -/
theorem Admitted.attribute_of_member (h : t.Admitted) {item child : ItemId}
    (hk : (t.item item).kind = some .simple)
    (hm : child ∈ (t.blueprint plugin).parts item .member) : (t.item child).role = .scalar := by
  obtain ⟨hbuilt, hpart⟩ := List.mem_filter.1 hm
  have hpart := of_decide_eq_true hpart
  have hmem : child ∈ (t.item item).children := mem_builtChildren hbuilt
  have hw : (t.blueprint plugin).Wanted child :=
    wanted_child (b := t.blueprint plugin) h.resolved.wellFormed hmem (by rw [hpart]; rfl)
  have hform := (h.resolved.wellFormed.regular.items item).suits _ hk
  have hitem := h.admits item (lt_size_of_kind hk) (not_extension_of_form hform (by simp))
  have hext : (t.item child).isExtension = false := not_extension_of_part hpart (by simp)
  rcases hitem.attributes hk child hmem with hs | hs | hs
  · have hnot : (t.item child).isSynthetic = false := (omits_eq_false_iff.1 hw.kept).2.1
    exact absurd hs (by simp [hnot])
  · exact hs
  · exact absurd hs (by simp [hext])

/-- An attribute leads to an item that names a fundamental type. -/
theorem Admitted.ends_of_attribute (h : t.Admitted) {x : ItemId} (hx : x.index < t.size)
    (hext : (t.item x).isExtension = false) (hrole : (t.item x).role = .scalar) :
    ∃ last type, Ends t.referenceStep x (.item last) ∧
      (t.item last).kind = some .fundamental ∧
      Blueprint.namedFundamental (t.item last) = some type := by
  have hend := (h.admits x hx hext).scalar hrole
  obtain ⟨last, hlast, _⟩ := h.resolved.ends x
  unfold endKind at hend
  rw [chainEnd_eq_ok_iff.2 hlast] at hend
  have hkl : (t.item last).kind = some .fundamental := Except.ok.inj hend
  obtain ⟨type, htype⟩ :=
    Blueprint.namedFundamental_of_kind h.resolved.wellFormed.regular hkl
  exact ⟨last, type, hlast, hkl, htype⟩

/-! ### Members that take the name of a value -/

open Blueprint in
/-- A member of a simple object that takes the name of the value is an attribute. -/
theorem Admitted.valueMember (h : t.Admitted) {item member : ItemId}
    (hk : (t.item item).kind = some .simple)
    (hm : (t.blueprint plugin).valueMember? item = some member) :
    ∃ last type, Ends t.referenceStep member (.item last) ∧
      (t.item last).kind = some .fundamental ∧ namedFundamental (t.item last) = some type ∧
      t.fundamentalOf member = some type := by
  have hr := h.resolved.wellFormed.regular
  obtain ⟨n, hfind, rfl⟩ := Option.map_eq_some_iff.1 hm
  obtain ⟨child, hchild, heq⟩ :=
    List.mem_filterMap.1 (List.mem_reverse.1 (List.mem_of_find?_eq_some hfind))
  obtain ⟨name, _, rfl⟩ := Option.map_eq_some_iff.1 heq
  obtain ⟨hbuilt, hpart⟩ := List.mem_filter.1 hchild
  have hpart := of_decide_eq_true hpart
  have hw : (t.blueprint plugin).Wanted child :=
    wanted_child (b := t.blueprint plugin) h.resolved.wellFormed (mem_builtChildren hbuilt)
      (by rw [hpart]; rfl)
  obtain ⟨last, type, hlast, hkl, htype⟩ :=
    h.ends_of_attribute hw.lt (not_extension_of_part hpart (by simp))
      (h.attribute_of_member hk hchild)
  refine ⟨last, type, hlast, hkl, htype, fundamentalOf_eq_some_iff.2 ?_⟩
  exact (hr.ends_fundamental_iff hlast).2
    (.halt ((fundamentalStep_of_fundamental hkl).trans (congrArg _ htype)))

/-! ### When the scalar is the right one -/

/-- The field for the value of a simple object leads where the fundamental type of the object is:
it is the field of the value, and the object is plainly valued, or it is that of a member that wraps
the same type as the object. -/
def ScalarValued (t : ItemTree) (plugin : Plugin) (item : ItemId) : Prop :=
  match (t.blueprint plugin).valueMember? item with
  | some member => t.fundamentalOf member = t.fundamentalOf item
  | none => t.PlainlyValued item

theorem BuiltBy.valueType?_iff {P : ItemId → Prop} {d d' : Draft}
    (h : t.BuiltBy plugin P d d' c) (ht : t.Admitted) {id : ElementId}
    (hid : id ∈ c.graph.simples) :
    (∃ type, c.graph.valueType? id = some type ∧ t.fundamentalOf (d.itemOf id) = some type) ↔
      t.ScalarValued plugin (d.itemOf id) := by
  have hk := (h.mem_simples.1 hid).2
  have hplace := h.find?_valueOf hid
  simp only [h.valueType?_eq_some_iff hid]
  unfold ScalarValued Blueprint.valueFieldPlace?
  cases hm : (t.blueprint plugin).valueMember? (d.itemOf id) with
  | some member =>
    obtain ⟨last, type, hlast, hkl, hnamed, hmember⟩ := ht.valueMember hk hm
    obtain ⟨e, _, hmem, he, _⟩ := h.member_of_valueMember? (List.mem_filter.1 hid).1 hm
    have hcomes : ∀ place, d.places.find? member = some place → d.ComesTo place type :=
      fun _ => h.assembled.comesTo_of_chain h.held ht.resolved hlast hkl hnamed
    constructor
    · rintro ⟨type', ⟨place, hp, hc⟩, htype'⟩
      have heq : some type' = some type := hc.unique (hcomes place hp)
      exact (hmember.trans heq.symm).trans htype'.symm
    · intro heq
      have hp := h.assembled.sound.indexed.place e (h.mem_ids.1 hmem)
      rw [he] at hp
      exact ⟨type, ⟨_, hp, hcomes _ hp⟩, heq.symm.trans hmember⟩
  | none =>
    constructor
    · rintro ⟨type, ⟨place, hp, hc⟩, htype⟩
      exact h.assembled.plainlyValued h.held ht.resolved hp htype hc
    · intro hv
      obtain ⟨type, htype⟩ := hv.fundamentalOf ht.resolved.wellFormed.regular hk
      exact ⟨type, ⟨_, hplace,
        h.assembled.comesTo_of_plainlyValued h.held ht.resolved hv hplace htype⟩, htype⟩

/-- **The scalar of a value.** After a compilation the field for the value of a simple object leads
to a scalar of the fundamental type that the object wraps exactly if the object is
`ScalarValued`. -/
theorem compile_valueType (h : t.Reachable) (hok : t.compile plugin options = .ok c) :
    ∃ a, t.compileTree plugin options = .ok (a, c) ∧ ∀ id ∈ c.graph.simples,
      ((∃ type, c.graph.valueType? id = some type ∧
        a.fundamentalOf (a.origin plugin id) = some type) ↔
          a.ScalarValued plugin (a.origin plugin id)) := by
  obtain ⟨a, d, d', hc, hadmitted, _, hbuilt⟩ := compile_built h hok
  refine ⟨a, hc, fun id hid => ?_⟩
  rw [hbuilt.origin_eq (List.mem_filter.1 hid).1]
  exact hbuilt.valueType?_iff hadmitted hid

/-- A simple object whose source is an alias of another one. -/
def aliasedSource : ItemTree :=
  (((ofSource "").push root ((Item.object (some "leaf")).withBase "string")).push root
    (Item.declaration (some "alias") "leaf")).push root
    ((Item.object (some "wrapper")).withBase "alias")

/-- It wraps a string as the other one does, but the field for its value leads to no scalar. -/
theorem aliasedSource_unvalued : aliasedSource.Reachable ∧ ∃ a c,
    aliasedSource.compileTree { name := "any", capabilities := .allElements } {} = .ok (a, c) ∧
    (⟨3⟩ : ElementId) ∈ c.graph.simples ∧ c.graph.valueType? ⟨3⟩ = none ∧
    a.fundamentalOf (a.origin { name := "any", capabilities := .allElements } ⟨3⟩) =
      some .string ∧
    ¬a.ScalarValued { name := "any", capabilities := .allElements }
      (a.origin { name := "any", capabilities := .allElements } ⟨3⟩) := by
  have hleaf := (Item.Declared.object (some "leaf")).withBase "string"
  have halias := Item.Declared.declaration (some "alias") "leaf"
  have hwrapper := (Item.Declared.object (some "wrapper")).withBase "alias"
  have hreachable : aliasedSource.Reachable :=
    (((Reachable.source "").push (p := root) (by decide) hleaf).push (p := root) (by decide)
      halias).push (p := root) (by decide) hwrapper
  have hvalues : (aliasedSource.compileTree { name := "any", capabilities := .allElements }
      {}).toOption.map (fun r => (decide ((⟨3⟩ : ElementId) ∈ r.2.graph.simples),
        r.2.graph.valueType? ⟨3⟩,
        r.1.fundamentalOf (r.1.origin { name := "any", capabilities := .allElements } ⟨3⟩))) =
      some (true, none, some .string) := by decide +kernel
  refine ⟨hreachable, ?_⟩
  cases hc : aliasedSource.compileTree { name := "any", capabilities := .allElements } {} with
  | error failure =>
    rw [hc] at hvalues
    cases hvalues
  | ok r =>
    obtain ⟨a, c⟩ := r
    rw [hc] at hvalues
    obtain ⟨hsimple, hrest⟩ := Prod.mk.inj (Option.some.inj hvalues)
    obtain ⟨hvalue, htype⟩ := Prod.mk.inj hrest
    have hmem := of_decide_eq_true hsimple
    refine ⟨a, c, rfl, hmem, hvalue, htype, fun hscalar => ?_⟩
    obtain ⟨a', hc', hiff⟩ := compile_valueType hreachable (c := c) (by
      unfold compile
      rw [hc]
      rfl)
    rw [hc] at hc'
    cases hc'
    obtain ⟨type, hsome, _⟩ := (hiff _ hmem).2 hscalar
    rw [hvalue] at hsome
    cases hsome

end ItemTree
end Schemata
