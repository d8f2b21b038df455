import Mathlib.Data.List.Count
import Schemata.Proofs.Draft.Reciprocity
import Schemata.Proofs.References

/-! Bases and derived objects.

A compound object has a base for each item that its declaration refers to, and it
is among what is based on each of these as often as it has it for a base. Its type
has the types of its bases for bases, or else refs to them: an alias that is left
out of a link keeps its own type. -/
namespace Schemata

/-! ### Closed data -/

namespace ElementData

theorem linkAt_base {link : Type} (data : ElementData link) (index : Nat) :
    data.linkAt (.base index) = data.bases[index]? := by
  cases data <;> rfl

theorem crossing_of_compound {link : Type} {data : ElementData link} (h : data.kind = .compound)
    (find : link → Option ElementId) :
    data.crossing find = data.bases.filterMap find ++ data.derived := by
  cases data with
  | compound => rfl
  | _ => cases h

variable {data : ElementData (Option ElementId)} {data' : ElementData ElementId}

theorem Closes.bases (h : data.Closes data') : data.bases = data'.bases.map some :=
  List.ext_getElem? fun index => by
    rw [List.getElem?_map, ← linkAt_base, ← linkAt_base]
    exact h.links (.base index)

theorem Closes.derived (h : data.Closes data') : data'.derived = data.derived := by
  by_cases hk : data.kind = .compound
  · have hcrossing := h.crossing
    rw [crossing_of_compound (h.kind.trans hk), crossing_of_compound hk, h.bases,
      filterMap_map_some, List.filterMap_some] at hcrossing
    exact List.append_cancel_left hcrossing
  · rw [derived_of_kind hk, derived_of_kind fun hk' => hk (h.kind.symm.trans hk')]

end ElementData

namespace ItemTree

open Draft

variable {t a : ItemTree} {plugin : Plugin} {options : Options} {P : ItemId → Prop} {c : Compiled}
  {d d' : Draft} {x : ElementId} {item : ItemId} {place : TypeInfoId}

namespace BuiltBy

/-! ### What an object is based on -/

theorem bases (h : a.BuiltBy plugin P d d' c) (hx : x ∈ c.graph.ids) :
    (d.element x).data.bases = (c.graph.element x).data.bases.map some := by
  rw [← (h.completed.kept.data x).field ElementData.bases fun _ _ _ => rfl]
  exact (h.element hx).data.bases

theorem derived (h : a.BuiltBy plugin P d d' c) (hx : x ∈ c.graph.ids) :
    (c.graph.element x).data.derived = (d.element x).data.derived :=
  (h.element hx).data.derived.trans
    ((h.completed.kept.data x).field ElementData.derived fun _ _ _ => rfl)

/-- The bases of a compound object are the elements that stand for what its item refers to. -/
theorem bases_of_compound (h : a.BuiltBy plugin P d d' c) (hx : x ∈ c.graph.ids)
    (hk : (c.graph.element x).kind = .compound) :
    List.Forall₂ (fun item base => d.idOf? ((a.blueprint plugin).standIn item) = some base)
      (a.item (d.itemOf x)).itemReferences (c.graph.element x).data.bases := by
  have hkind := h.kind_item hx
  rw [hk] at hkind
  refine h.elementsOf_links hx .base (fun i => ?_) fun i => ElementData.linkAt_base _ i
  unfold Blueprint.linked?
  rw [show ((a.blueprint plugin).tree.item (d.itemOf x)).kind = _ from hkind]
  rfl

/-- An alias that has an element has a ref to what stands for its target. -/
theorem refersTo_of_alias (h : a.BuiltBy plugin P d d' c) (hr : a.Resolved) (hx : x ∈ c.graph.ids)
    (halias : a.IsAlias (d.itemOf x)) :
    ∃ arity shape, c.graph.typeInfos.get? (c.graph.element x).typeInfo = some ⟨arity, shape⟩ ∧
      (a.blueprint plugin).RefersTo d (d.itemOf x) shape := by
  obtain ⟨hk, haugmenting⟩ := halias
  obtain ⟨shape, hget, hshape⟩ := h.type_of_link hr hx (.inl (h.kind_eq hx hk))
  have hnone : (a.blueprint plugin).narrowed? (d.itemOf x) = none := by
    refine Option.eq_none_iff_forall_ne_some.2 fun type htype => ?_
    have hrefines := ((Blueprint.narrowed?_eq_some_iff (b := a.blueprint plugin) hr
      (by rw [show ((a.blueprint plugin).tree.item (d.itemOf x)).kind = _ from hk]; nofun)).1
        htype).augmenting
    rw [show ((a.blueprint plugin).tree.item (d.itemOf x)).isAugmenting = _ from haugmenting]
      at hrefines
    cases hrefines
  rw [hnone] at hshape
  exact ⟨_, shape, hget, hshape⟩

/-- The type of what an item refers to is that of the base that stands for it, or a ref to it. -/
theorem type_of_base (h : a.BuiltBy plugin P d d' c) (hr : a.Resolved) {base : ElementId}
    (hid : d.idOf? ((a.blueprint plugin).standIn item) = some base)
    (hp : d.places.find? item = some place) :
    place = (c.graph.element base).typeInfo ∨ ∃ arity,
      c.graph.typeInfos.get? place = some ⟨arity, .ref (c.graph.element base).typeInfo⟩ := by
  obtain ⟨hmem, hitem, _⟩ := h.element_of_idOf? hid
  have hbase := h.place_eq hmem
  rw [hitem] at hbase
  by_cases hself : (a.blueprint plugin).isAlias item = false ∨
      (a.blueprint plugin).preserveReferences = true
  · rw [Blueprint.standIn_eq_of_not_isAlias hself, hp] at hbase
    exact .inl (Option.some.inj hbase)
  · -- the alias has a ref of its own for its type
    rw [not_or, Bool.not_eq_false, Bool.not_eq_true] at hself
    obtain ⟨x, hx, _, rfl, rfl⟩ := h.exists_of_place hp
    obtain ⟨arity, _, hget, target, q, htarget, hq, rfl⟩ :=
      h.refersTo_of_alias hr hx (Blueprint.isAlias_iff.1 hself.1)
    have hgo : (a.blueprint plugin).aliasStep (d.itemOf x) = .go target := by
      unfold Blueprint.aliasStep
      rw [if_pos hself.1, htarget]
    rw [Blueprint.standIn_of_aliasStep hr hself.2 hgo, hq] at hbase
    cases hbase
    exact .inr ⟨arity, hget⟩

end BuiltBy

/-! ### All together -/

/-- A compound object and its bases, among its data and in its type. -/
structure BasedRightly (a : ItemTree) (plugin : Plugin) (g : Graph) (x : ElementId) : Prop where
  items : List.Forall₂ (fun item base => base ∈ g.ids ∧
      if plugin.capabilities.preserveReferences then a.origin plugin base = item
      else a.FirstPlain item (a.origin plugin base))
    (a.item (a.origin plugin x)).itemReferences (g.element x).data.bases
  types : ∃ arity places fields,
    g.typeInfos.get? (g.element x).typeInfo = some ⟨arity, .record ⟨places, fields⟩⟩ ∧
    List.Forall₂ (fun base place => place = (g.element base).typeInfo ∨
        ∃ arity, g.typeInfos.get? place = some ⟨arity, .ref (g.element base).typeInfo⟩)
      (g.element x).data.bases places

theorem BuiltBy.basedRightly (h : a.BuiltBy plugin P d d' c) (hr : a.Resolved)
    (hx : x ∈ c.graph.ids) (hk : (c.graph.element x).kind = .compound) :
    a.BasedRightly plugin c.graph x where
  items := by
    rw [h.origin_eq hx]
    refine (h.bases_of_compound hx hk).imp fun item base hid => ?_
    obtain ⟨hmem, hitem, _⟩ := h.element_of_idOf? hid
    refine ⟨hmem, ?_⟩
    rw [h.origin_eq hmem, hitem]
    split
    · next hp => exact Blueprint.standIn_eq_of_not_isAlias (.inr hp)
    · next hp =>
      exact Blueprint.firstPlain_standIn (b := a.blueprint plugin) hr (Bool.eq_false_iff.2 hp) item
  types := by
    obtain ⟨places, fields, hplaces, _, hget⟩ := h.type_of_compound hx hk
    exact ⟨_, places, _, hget, (forall₂_of_common (h.bases_of_compound hx hk) hplaces).imp
      fun base place ⟨item, hid, hp⟩ => h.type_of_base hr hid hp⟩

/-- **Inheritance is mutual.** In a compiled graph every compound object has the bases that its
item refers to, in order, and their types for the bases of its type. It is among what is based on
another one just as often as that one is among its bases, and only compound objects are based on
anything. -/
theorem compile_bases (h : t.Reachable) (hok : t.compile plugin options = .ok c) :
    ∃ a, t.compileTree plugin options = .ok (a, c) ∧
      (∀ x ∈ c.graph.ids, (c.graph.element x).kind = .compound → a.BasedRightly plugin c.graph x) ∧
      (∀ x ∈ c.graph.ids, ∀ y ∈ c.graph.ids, (c.graph.element y).kind = .compound →
        (c.graph.element y).data.derived.count x = (c.graph.element x).data.bases.count y) ∧
      ∀ y ∈ c.graph.ids, ∀ x ∈ (c.graph.element y).data.derived,
        x ∈ c.graph.ids ∧ (c.graph.element x).kind = .compound := by
  obtain ⟨a, d, d', htree, ha, _, hbuilt⟩ := compile_built h hok
  have hreciprocal := (Blueprint.reciprocal_assemble (b := a.blueprint plugin)).of_ok hbuilt.run
  refine ⟨a, htree, fun x hx hk => hbuilt.basedRightly ha.resolved hx hk,
    fun x hx y hy hk => ?_, fun y hy x hx => ?_⟩
  · have hcount := hreciprocal.counts x y ((hbuilt.kind hy).symm.trans hk)
    rw [hbuilt.bases hx, List.count_map_of_injective _ _ fun _ _ => Option.some.inj] at hcount
    rw [hbuilt.derived hy]
    exact hcount
  · rw [hbuilt.derived hy] at hx
    have hk : (d.element y).data.kind = .compound := by
      by_contra hk
      rw [ElementData.derived_of_kind hk] at hx
      cases hx
    have hcount := List.count_pos_iff.2 hx
    rw [hreciprocal.counts x y hk, List.count_pos_iff] at hcount
    have hmem : x ∈ c.graph.ids :=
      hbuilt.mem_ids.2 (lt_of_base (List.ne_nil_of_mem hcount))
    exact ⟨hmem, (hbuilt.kind hmem).trans (ElementData.kind_of_mem_bases hcount)⟩

/-- An object that is based twice on one that comes after it, and once more by an alias. -/
def basedThrice : ItemTree :=
  (((ofSource "").push root
    ((((Item.object (some "Derived")).withBase "Base").withBase "Alias").withBase "Base")).push root
    (Item.declaration (some "Alias") "Base")).push root (Item.object (some "Base"))

/-- Three times it is among what is based on the other, and its type has the other's and a ref to
that. -/
theorem basedThrice_mutual : basedThrice.Reachable ∧ ∃ a c,
    basedThrice.compileTree { name := "any", capabilities := .allElements } {} = .ok (a, c) ∧
    basedThrice.compile { name := "any", capabilities := .allElements } {} = .ok c ∧
    (c.graph.element ⟨1⟩).data.bases = [⟨3⟩, ⟨3⟩, ⟨3⟩] ∧
    (c.graph.element ⟨3⟩).data.derived.count ⟨1⟩ = 3 ∧
    a.BasedRightly { name := "any", capabilities := .allElements } c.graph ⟨1⟩ := by
  have hderived :=
    (((Item.Declared.object (some "Derived")).withBase "Base").withBase "Alias").withBase "Base"
  have halias := Item.Declared.declaration (some "Alias") "Base"
  have hbase := Item.Declared.object (some "Base")
  have hreachable : basedThrice.Reachable :=
    (((Reachable.source "").push (p := root) (by decide) hderived).push (p := root) (by decide)
      halias).push (p := root) (by decide) hbase
  have hfacts : (basedThrice.compile { name := "any", capabilities := .allElements }
      {}).toOption.map (fun c => (c.graph.size, (c.graph.element ⟨1⟩).kind,
        (c.graph.element ⟨3⟩).kind, (c.graph.element ⟨1⟩).data.bases)) =
      some (4, .compound, .compound, [⟨3⟩, ⟨3⟩, ⟨3⟩]) := by decide +kernel
  obtain ⟨c, hc, hfacts⟩ := Option.map_eq_some_iff.1 hfacts
  simp only [Prod.mk.injEq] at hfacts
  obtain ⟨hsize, hk, hk', hbases⟩ := hfacts
  have hmem : (⟨1⟩ : ElementId) ∈ c.graph.ids := by simp [Graph.ids, hsize]
  have hmem' : (⟨3⟩ : ElementId) ∈ c.graph.ids := by simp [Graph.ids, hsize]
  obtain ⟨a, htree, hbased, hcount, _⟩ := compile_bases hreachable (eq_ok_of_toOption hc)
  refine ⟨hreachable, a, c, htree, eq_ok_of_toOption hc, hbases, ?_, hbased _ hmem hk⟩
  rw [hcount _ hmem _ hmem' hk', hbases]
  decide

end ItemTree
end Schemata
