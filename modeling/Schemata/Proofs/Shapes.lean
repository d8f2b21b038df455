import Schemata.Proofs.Draft.Narrowing
import Schemata.Proofs.Indirection
import Schemata.Proofs.Kinds
import Schemata.Proofs.Tree.Founding
import Schemata.Proofs.Values

/-! The shapes behind refs in finished graphs.

The types of references, of lists and of the values of simple objects are refs. The
chains of references all end, and values are taken from each other no more than
finitely often, but nothing keeps a list from being a list of itself. So the place
where the refs from a place lead to has a shape, except behind an item that
`Circles`. -/
namespace Schemata

open Search

/-! ### Refs that end -/

namespace TypeInfoTable

variable {table : TypeInfoTable} {place q last : TypeInfoId}

/-- Refs lead to what a place is resolved to. -/
theorem path_resolve (table : TypeInfoTable) (place : TypeInfoId) :
    Relation.ReflTransGen (fun p q => table.refAt p = some q) place (table.resolve place) := by
  suffices hfrom : ∀ left place, Relation.ReflTransGen (fun p q => table.refAt p = some q) place
      (table.resolveFrom left place) from hfrom table.size place
  intro left
  induction left with
  | zero =>
    intro place
    unfold resolveFrom
    cases hr : table.refAt place with
    | none => exact .refl
    | some target => exact .single hr
  | succ left ih =>
    intro place
    unfold resolveFrom
    cases hr : table.refAt place with
    | none => exact .refl
    | some target => exact .head hr (ih target)

theorem RefsEnd.ends (h : table.RefsEnd place last) : Ends table.toArena.refStep place last := by
  obtain ⟨hpath, hlast⟩ := h
  induction hpath using Relation.ReflTransGen.head_induction_on with
  | refl => exact .halt (TypeInfoArena.refStep_of_none ((table.refAt_toArena last).trans hlast))
  | @head p q hpq _ ih =>
    exact .go (TypeInfoArena.refStep_of_some ((table.refAt_toArena p).trans hpq)) ih

/-- What a place is resolved to is no ref just in case the refs from the place end. -/
theorem refAt_resolve_eq_none_iff :
    table.refAt (table.resolve place) = none ↔ ∃ last, table.RefsEnd place last := by
  refine ⟨fun h => ⟨_, table.path_resolve place, h⟩, fun ⟨last, h⟩ => ?_⟩
  rw [table.resolve_eq, TypeInfoArena.resolve_eq_of_ends h.ends]
  exact h.2

/-- What is no ref is resolved to itself. -/
theorem resolve_eq_self (h : table.refAt place = none) : table.resolve place = place := by
  unfold resolve resolveFrom
  rw [h]

theorem RefsEnd.head (hpq : table.refAt place = some q) (h : table.RefsEnd q last) :
    table.RefsEnd place last := ⟨.head hpq h.1, h.2⟩

end TypeInfoTable

/-! ### Items whose shape is that of another one -/

namespace ItemTree

variable {t a : ItemTree} {x y z : ItemId}

/-- Goes on at a reference and at a list, and stops elsewhere. -/
def shapeStep (t : ItemTree) (item : ItemId) : Step ItemId ItemId :=
  match (t.item item).kind, (t.item item).target? with
  | some .reference, some (.item next) | some .list, some (.item next) => .go next
  | _, _ => .halt item

/-- References and lists lead to a list that they lead back to. -/
def Circles (t : ItemTree) (x : ItemId) : Prop :=
  ∃ y, (t.item y).kind = some .list ∧ Relation.ReflTransGen (Follows t.shapeStep) x y ∧
    Relation.TransGen (Follows t.shapeStep) y y

theorem shapeStep_eq_go_iff : t.shapeStep x = .go y ↔
    ((t.item x).kind = some .reference ∨ (t.item x).kind = some .list) ∧
      (t.item x).target? = some (.item y) := by
  unfold shapeStep
  split
  · next hk ht => simp [hk, ht]
  · next hk ht => simp [hk, ht]
  · next hr hl =>
    refine iff_of_false (by simp) fun ⟨hk, ht⟩ => ?_
    exact hk.elim (fun hk => hr y hk ht) fun hk => hl y hk ht

theorem shapeStep_halt (hr : (t.item x).kind ≠ some .reference)
    (hl : (t.item x).kind ≠ some .list) : t.shapeStep x = .halt x := by
  unfold shapeStep
  split
  · next hk _ => exact absurd hk hr
  · next hk _ => exact absurd hk hl
  · rfl

theorem follows_shape_of_refers (h : t.Refers x y) : Follows t.shapeStep x y :=
  shapeStep_eq_go_iff.2 ⟨.inl h.1, h.2⟩

theorem ends_shape_of_path (hxy : Relation.ReflTransGen (Follows t.shapeStep) x y)
    (h : Ends t.shapeStep y z) : Ends t.shapeStep x z := by
  induction hxy using Relation.ReflTransGen.head_induction_on with
  | refl => exact h
  | head hxw _ ih => exact .go hxw ih

/-- As chains of references end, there is a list in every circle. -/
theorem Resolved.list_of_circle (h : t.Resolved)
    (hx : Relation.TransGen (Follows t.shapeStep) x x) :
    ∃ y, (t.item y).kind = some .list ∧ Relation.ReflTransGen (Follows t.shapeStep) x y ∧
      Relation.TransGen (Follows t.shapeStep) y y := by
  obtain ⟨last, hlast, _⟩ := h.ends x
  generalize Target.item last = target at hlast
  induction hlast with
  | @halt x target hstep =>
    obtain ⟨y, hxy, _⟩ := Relation.TransGen.head'_iff.1 hx
    rcases (shapeStep_eq_go_iff.1 hxy).1 with hk | hk
    · obtain ⟨z, _, hgo⟩ := h.wellFormed.regular.reference hk
      rw [hgo] at hstep
      cases hstep
    · exact ⟨x, hk, .refl, hx⟩
  | @go x y target hstep _ ih =>
    have hxy := follows_shape_of_refers (h.wellFormed.regular.refers_of_follows hstep)
    obtain ⟨z, hxz, hzx⟩ := Relation.TransGen.head'_iff.1 hx
    obtain rfl : y = z := by
      rw [Follows, hxy] at hxz
      cases hxz
      rfl
    obtain ⟨w, hk, hyw, hww⟩ := ih (Relation.TransGen.tail' hzx hxy)
    exact ⟨w, hk, .head hxy hyw, hww⟩

/-- An item circles just in case the chain from it has no end. -/
theorem Resolved.circles_iff (h : t.Resolved) : t.Circles x ↔ ¬∃ z, Ends t.shapeStep x z := by
  constructor
  · rintro ⟨y, _, hxy, hyy⟩ ⟨z, hz⟩
    exact (hz.follow hxy).acyclic hyy
  · intro hnone
    have hgo : ∀ x y, t.shapeStep x = .go y → x ∈ t.ids := fun x y hxy =>
      (t.mem_ids x).2 ((shapeStep_eq_go_iff.1 hxy).1.elim lt_size_of_kind lt_size_of_kind)
    rcases ends_or_circles hgo x with hends | ⟨y, hxy, hyy⟩
    · exact absurd hends hnone
    · obtain ⟨z, hk, hyz, hzz⟩ := h.list_of_circle hyy
      exact ⟨z, hk, hxy.trans hyz, hzz⟩

/-- What is founded does not circle. -/
theorem Founded.ends_shape (h : t.Founded x) (ht : t.Regular) :
    ∃ z, Ends t.shapeStep x z := by
  have hplain : ∀ {x}, (t.item x).kind ≠ some .reference → (t.item x).kind ≠ some .list →
      ∃ z, Ends t.shapeStep x z := fun hr hl => ⟨_, .halt (shapeStep_halt hr hl)⟩
  have hone : ∀ {x}, (t.item x).kind = some .reference ∨ (t.item x).kind = some .list →
      ∃ y, (t.item x).references = [.item y] := fun {x} hk => by
    rcases hk with hk | hk
    · obtain ⟨_, _, hy⟩ := (ht.items x).suits _ hk
      exact hy
    · obtain ⟨_, _, hy⟩ := (ht.items x).suits _ hk
      exact hy
  induction h with
  | split hk _ => exact hplain (by simp [hk]) (by simp [hk])
  | fundamental hk => exact hplain (by simp [hk]) (by simp [hk])
  | @names x _ _ hn =>
    by_cases hk : (t.item x).kind = some .reference ∨ (t.item x).kind = some .list
    · obtain ⟨y, hy⟩ := hone hk
      unfold namesFundamental at hn
      rw [hy] at hn
      simp at hn
    · rw [not_or] at hk
      exact hplain hk.1 hk.2
  | @via x y _ hxy _ ih =>
    by_cases hk : (t.item x).kind = some .reference ∨ (t.item x).kind = some .list
    · obtain ⟨y', hy'⟩ := hone hk
      obtain rfl : y = y' := by
        have hmem := (mem_referred_iff.1 hxy).2
        rw [hy'] at hmem
        exact Target.item.inj (List.mem_singleton.1 hmem)
      obtain ⟨z, hz⟩ := ih
      exact ⟨z, .go (shapeStep_eq_go_iff.2 ⟨hk, target?_of_references hy'⟩) hz⟩
    · rw [not_or] at hk
      exact hplain hk.1 hk.2

end ItemTree

/-! ### Types that lead to other ones -/

namespace Blueprint

open ItemTree

variable {b : Blueprint} {x y : ItemId}

theorem follows_of_leads (h : b.Leads x y) : Follows b.tree.shapeStep x y := by
  unfold Leads typeTarget? at h
  have htarget : ∀ target : Option Target, target.bind Target.item? = some y →
      target = some (.item y) := fun target h => by
    obtain ⟨_ | _, rfl, h⟩ := Option.bind_eq_some_iff.1 h
    · exact congrArg (some ∘ Target.item) (Option.some.inj h)
    · cases h
  split at h
  · next hk _ => exact shapeStep_eq_go_iff.2 ⟨.inl hk, htarget _ h⟩
  · next hk => exact shapeStep_eq_go_iff.2 ⟨.inr hk, htarget _ h⟩
  · cases h

/-- A reference that narrows a fundamental type is at the start of a chain that ends. -/
theorem ends_of_narrowed (ht : b.tree.Resolved) {type : Fundamental}
    (hn : b.narrowed? x = some type) : ∃ z, Ends b.tree.shapeStep x z := by
  unfold narrowed? at hn
  split at hn
  · next last hlast =>
    split at hn
    · next hk =>
      have hpath := ht.wellFormed.regular.refers_of_ends (chainEnd_eq_ok_iff.1 hlast)
      refine ⟨last, ends_shape_of_path
        (Relation.ReflTransGen.mono (fun _ _ => follows_shape_of_refers) _ _ hpath)
        (.halt (shapeStep_halt (by simp [hk.1]) (by simp [hk.1])))⟩
    · cases hn
  · cases hn

/-- Types lead to an end just in case the chain of shapes ends, as only where a fundamental type is
narrowed the type of a reference leads nowhere. -/
theorem leads_end_iff (ht : b.tree.Resolved) :
    (∃ z, Relation.ReflTransGen b.Leads x z ∧ b.typeTarget? z = none) ↔
      ∃ z, Ends b.tree.shapeStep x z := by
  constructor
  · rintro ⟨z, hxz, hz⟩
    have hpath := Relation.ReflTransGen.mono (fun _ _ => follows_of_leads) _ _ hxz
    suffices hends : ∃ w, Ends b.tree.shapeStep z w from
      hends.imp fun _ hw => ends_shape_of_path hpath hw
    cases hstep : b.tree.shapeStep z with
    | halt w => exact ⟨w, .halt hstep⟩
    | go w =>
      obtain ⟨hk, htarget⟩ := shapeStep_eq_go_iff.1 hstep
      cases hn : b.narrowed? z with
      | some type => exact ends_of_narrowed ht hn
      | none =>
        unfold typeTarget? at hz
        rcases hk with hk | hk <;> rw [hk, htarget] at hz
        · rw [hn] at hz
          cases hz
        · cases hz
  · rintro ⟨z, hz⟩
    induction hz with
    | @halt x z hstep =>
      refine ⟨x, .refl, Option.eq_none_iff_forall_ne_some.2 fun y hxy => ?_⟩
      have hgo := follows_of_leads (b := b) hxy
      rw [Follows, hstep] at hgo
      cases hgo
    | @go x y z hstep _ ih =>
      cases hxy : b.typeTarget? x with
      | none => exact ⟨x, .refl, hxy⟩
      | some y' =>
        have hgo := follows_of_leads (b := b) hxy
        rw [Follows, hstep] at hgo
        cases hgo
        obtain ⟨w, hyw, hw⟩ := ih
        exact ⟨w, .head hxy hyw, hw⟩

end Blueprint

/-! ### Finished graphs -/

namespace ItemTree

open Draft

variable {t a : ItemTree} {plugin : Plugin} {options : Options} {P : ItemId → Prop}
  {c : Compiled} {d d' : Draft} {e : ElementId} {x y : ItemId} {place : TypeInfoId}

namespace BuiltBy

/-- The refs from the type of an element end just in case the chain of shapes does. -/
theorem refsEnd_iff (h : a.BuiltBy plugin P d d' c) (ha : a.Resolved) (he : e ∈ c.graph.ids) :
    (∃ last, c.graph.typeInfos.RefsEnd (c.graph.element e).typeInfo last) ↔
      ∃ z, Ends a.shapeStep (d.itemOf e) z := by
  refine Iff.trans ?_ (Blueprint.leads_end_iff (b := a.blueprint plugin) ha)
  constructor
  · rintro ⟨last, hlast⟩
    exact h.leads_of_refsEnd ha he hlast
  · rintro ⟨z, hxz, hz⟩
    obtain ⟨f, _, _, hf⟩ := h.refsEnd_of_leads ha he hxz hz
    exact ⟨_, hf⟩

/-- The type of an element has no shape just in case its item circles. -/
theorem refAt_resolve_iff (h : a.BuiltBy plugin P d d' c) (ha : a.Resolved)
    (he : e ∈ c.graph.ids) :
    (c.graph.typeInfos.refAt (c.graph.typeInfos.resolve
      (c.graph.element e).typeInfo)).isSome ↔ a.Circles (d.itemOf e) := by
  rw [ha.circles_iff, ← h.refsEnd_iff ha he, ← TypeInfoTable.refAt_resolve_eq_none_iff,
    Option.isSome_iff_ne_none]

/-- Where the value of a simple object is a ref, it leads to the value of its source. -/
theorem source_of_value (h : a.BuiltBy plugin P d d' c) (hbuild : a.build plugin = .ok c)
    (hx : d.valuePlaces.find? x = some place) {q : TypeInfoId}
    (hq : c.graph.typeInfos.refAt place = some q) :
    a.syntheticChild x = none ∧ ∃ y, (a.simpleSources x).head? = some y ∧
      (a.blueprint plugin).scalarPlace? d y = some q := by
  obtain ⟨final, hfrom, hgets⟩ := scalarsFrom_of_build hbuild h
  obtain ⟨⟨arity, shape⟩, hget, hshape⟩ := Option.bind_eq_some_iff.1 hq
  have hget' : d.typeInfos.get? place = some ⟨arity, .ref q⟩ := by
    cases shape with
    | ref target =>
      cases hshape
      exact hfrom.ref place arity q ((hgets place).symm.trans hget)
    | _ => cases hshape
  have hvalued := h.assembled.valued h.held hx
  unfold Blueprint.Valued at hvalued
  cases hs : (a.blueprint plugin).tree.syntheticChild x with
  | some child =>
    rw [hs] at hvalued
    obtain ⟨_, _, hown⟩ := hvalued
    rw [hget'] at hown
    cases hown
  | none =>
    rw [hs] at hvalued
    obtain ⟨y, q', hy, hq', _, hplace⟩ := hvalued
    refine ⟨hs, y, hy, ?_⟩
    split at hplace
    · rw [hget'] at hplace
      cases hplace
      exact hq'
    · rw [(h.assembled.sound.indexed.narrowed place _ hplace).1] at hget'
      cases hget'

/-- The refs from a value end, as the object that it is the value of is founded. -/
theorem refsEnd_of_value (h : a.BuiltBy plugin P d d' c) (hbuild : a.build plugin = .ok c)
    (ha : a.Resolved)
    (hone : ∀ x, (a.item x).kind = some .simple → a.syntheticChild x = none →
      (a.simpleSources x).length = 1)
    (hx : a.Founded x) (hp : d.valuePlaces.find? x = some place) :
    ∃ last, c.graph.typeInfos.RefsEnd place last := by
  have hr := ha.wellFormed.regular
  induction hx generalizing place with
  | @split x _ hs =>
    cases hq : c.graph.typeInfos.refAt place with
    | none => exact ⟨place, .refl, hq⟩
    | some q =>
      rw [(h.source_of_value hbuild hp hq).1] at hs
      cases hs
  | @fundamental x hk =>
    have hk' := h.assembled.sound.valuePlaces x place hp
    exact absurd (hk.symm.trans hk') (by simp)
  | @names x _ hk _ => exact absurd (h.assembled.sound.valuePlaces x place hp) hk
  | @via x y hb hxy hy ih =>
    cases hq : c.graph.typeInfos.refAt place with
    | none => exact ⟨place, .refl, hq⟩
    | some q =>
      obtain ⟨hs, s, hsource, hsq⟩ := h.source_of_value hbuild hp hq
      -- the reference that founds the object is its only source
      obtain rfl : y = s := by
        have hmem : y ∈ a.simpleSources x := by
          refine List.mem_filter.2 ⟨mem_itemReferences.2 (mem_referred_iff.1 hxy).2, ?_⟩
          exact hr.leadsToFundamental hy.grounded (hr.lt_of_referred hxy)
        obtain ⟨z, hz⟩ := List.length_eq_one_iff.1
          (hone x (h.assembled.sound.valuePlaces x place hp) hs)
        rw [hz] at hmem hsource
        exact (List.mem_singleton.1 hmem).trans (Option.some.inj hsource)
      suffices hends : ∃ last, c.graph.typeInfos.RefsEnd q last from
        hends.imp fun _ hlast => hlast.head hq
      rcases Blueprint.scalarPlace?_cases hsq with ⟨_, hvalue⟩ | ⟨_, hplace⟩
      · exact ih hvalue
      · obtain ⟨e, he, _, hitem, rfl⟩ := h.exists_of_place hplace
        exact (h.refsEnd_iff ha he).2 (hitem.symm ▸ hy.ends_shape hr)

end BuiltBy

/-- **Every type has a shape, but for lists of themselves.** Each place of a compiled graph is
resolved to a place of the graph. That one is a ref just in case the first is the type of an element
whose item leads, along references and lists, to a list that leads back to itself. -/
theorem compile_shapes (h : t.Reachable) (hok : t.compile plugin options = .ok c) :
    ∃ a, t.compileTree plugin options = .ok (a, c) ∧ ∀ p ∈ c.graph.typeInfos.ids,
      c.graph.typeInfos.resolve p ∈ c.graph.typeInfos.ids ∧
      ((c.graph.typeInfos.refAt (c.graph.typeInfos.resolve p)).isSome ↔
        ∃ e ∈ c.graph.ids, (c.graph.element e).typeInfo = p ∧
          a.Circles (a.origin plugin e)) := by
  obtain ⟨a, d, d', hc, hadmitted, _, hbuilt⟩ := compile_built h hok
  obtain ⟨r, hr, ha, hbuild⟩ := compileTree_stages hc
  obtain ⟨_, hresolved⟩ := resolve_ok h.wellFormed hr
  obtain ⟨halike, _⟩ := admitted_of_admitAll hresolved ha
  have hone : ∀ x, (a.item x).kind = some .simple → a.syntheticChild x = none →
      (a.simpleSources x).length = 1 := fun x hk hn => by
    rcases value_of_simple hresolved ha hk with ⟨hs, _⟩ | ⟨_, hlength⟩
    · rw [hn] at hs
      cases hs
    · exact hlength
  have helement : ∀ e ∈ c.graph.ids, ((c.graph.typeInfos.refAt (c.graph.typeInfos.resolve
      (c.graph.element e).typeInfo)).isSome ↔ a.Circles (a.origin plugin e)) := fun e he => by
    rw [hbuilt.origin_eq he]
    exact hbuilt.refAt_resolve_iff hadmitted.resolved he
  refine ⟨a, hc, fun p hp => ⟨?_, fun hsome => ?_, ?_⟩⟩
  · have hpath := c.graph.typeInfos.path_resolve p
    generalize c.graph.typeInfos.resolve p = last at hpath
    induction hpath with
    | refl => exact hp
    | @tail q s _ hqs ih =>
      obtain ⟨⟨arity, shape⟩, hget, hshape⟩ := Option.bind_eq_some_iff.1 hqs
      cases shape <;> cases hshape
      exact hbuilt.closed.types q _ hget s (List.mem_singleton_self s)
  · rcases List.mem_append.1 (hbuilt.perm_owners.symm.subset hp) with hmem | hmem
    · obtain ⟨e, he, rfl⟩ := List.mem_map.1 hmem
      exact ⟨e, he, rfl, (helement e he).1 hsome⟩
    · obtain ⟨e, he, rfl⟩ := List.mem_map.1 hmem
      have hfounded : a.Founded (d.itemOf e) :=
        ((h.of_resolve hr).alike halike).founded (hbuilt.mem_simples.1 he).2
      have hnone := TypeInfoTable.refAt_resolve_eq_none_iff.2
        (hbuilt.refsEnd_of_value hbuild hadmitted.resolved hone hfounded (hbuilt.find?_valueOf he))
      rw [hnone] at hsome
      cases hsome
  · rintro ⟨e, he, rfl, hcircles⟩
    exact (helement e he).2 hcircles

/-- Two lists that are lists of each other. -/
def circlingLists : ItemTree :=
  ((ofSource "").push root
    ((Item.declaration (some "first") "second").withArity Arity.zeroOrMore)).push root
    ((Item.declaration (some "second") "first").withArity Arity.zeroOrMore)

/-- It compiles, and the type of the first is resolved to a ref, as the first circles. -/
theorem circlingLists_shapeless : circlingLists.Reachable ∧ ∃ a c,
    circlingLists.compileTree { name := "any", capabilities := .allElements } {} = .ok (a, c) ∧
    (⟨1⟩ : TypeInfoId) ∈ c.graph.typeInfos.ids ∧
    (c.graph.typeInfos.refAt (c.graph.typeInfos.resolve ⟨1⟩)).isSome ∧
    ∃ e ∈ c.graph.ids, (c.graph.element e).typeInfo = ⟨1⟩ ∧
      a.Circles (a.origin { name := "any", capabilities := .allElements } e) := by
  have hfirst := (Item.Declared.declaration (some "first") "second").withArity Arity.zeroOrMore
  have hsecond := (Item.Declared.declaration (some "second") "first").withArity Arity.zeroOrMore
  have hreachable : circlingLists.Reachable :=
    ((Reachable.source "").push (p := root) (by decide) hfirst).push (p := root) (by decide) hsecond
  have hfacts : (circlingLists.compileTree { name := "any", capabilities := .allElements }
      {}).toOption.map (fun r => (r.2.graph.typeInfos.size,
        (r.2.graph.typeInfos.refAt (r.2.graph.typeInfos.resolve ⟨1⟩)).isSome)) =
      some (3, true) := by decide +kernel
  obtain ⟨⟨a, c⟩, hc, hfacts⟩ := Option.map_eq_some_iff.1 hfacts
  obtain ⟨hsize, hsome⟩ := Prod.mk.inj hfacts
  have hok := eq_ok_of_toOption hc
  have hmem : (⟨1⟩ : TypeInfoId) ∈ c.graph.typeInfos.ids :=
    (TypeInfoTable.mem_ids _ _).2 (by rw [hsize]; decide)
  obtain ⟨a', hok', hall⟩ := compile_shapes hreachable (c := c) (by
    unfold compile
    rw [hok]
    rfl)
  rw [hok] at hok'
  cases hok'
  exact ⟨hreachable, a, c, hok, hmem, hsome, (hall ⟨1⟩ hmem).2.1 hsome⟩

end ItemTree
end Schemata
