import Schemata.Proofs.Coverage
import Schemata.Proofs.Tree.Arities
import Schemata.Proofs.Types

/-! References and lists.

A reference or a list has a link to the element of its target or, unless aliases are
to stay, to that of the first item behind the target that is no alias. Its type is a
ref to the type of this same element, but for references that refine a fundamental
type. What is left out on the way has no say in this: an alias has the arity of
whatever it links to. -/
namespace Schemata

/-! ### What stands at the end of a link -/

namespace ItemTree

/-- The first item from `x` on that is no alias. -/
def FirstPlain (t : ItemTree) (x y : ItemId) : Prop :=
  Relation.ReflTransGen t.Behind x y ∧ ¬t.IsAlias y

/-- A reference that changes something about the fundamental type at the end of its chain. -/
structure Refines (t : ItemTree) (x : ItemId) (type : Fundamental) : Prop where
  kind : (t.item x).kind = some .reference
  augmenting : (t.item x).isAugmenting = true
  ends : ∃ last, Relation.ReflTransGen t.Refers x last ∧
    (t.item last).kind = some .fundamental ∧
    (t.item last).target? = some (.builtin (.fundamental type))

/-- All that an alias passes on the way to what it stands for has the same arity. -/
theorem Settled.arity_eq {t : ItemTree} {x y : ItemId} (h : t.Settled)
    (hxy : Relation.ReflTransGen t.Behind x y) : (t.item y).arity = (t.item x).arity := by
  induction hxy with
  | refl => rfl
  | tail _ hyz ih => exact (h.aliases _ _ hyz.2 hyz.1.2).trans ih

end ItemTree

namespace Blueprint

open Search

variable {b : Blueprint} {x : ItemId} {type : Fundamental}

theorem firstPlain_standIn (h : b.tree.Resolved) (hp : b.preserveReferences = false) (x : ItemId) :
    b.tree.FirstPlain x (b.standIn x) := by
  obtain ⟨hpath, hn⟩ := aliases_standIn h x
  refine ⟨Relation.ReflTransGen.mono (fun _ _ => behind_of_aliasStep) _ _ hpath, fun halias => ?_⟩
  have hn := hn hp
  rw [isAlias_iff.2 halias] at hn
  cases hn

/-- Whether aliases stay or not, only aliases are passed on the way to what stands for an item. -/
theorem behind_standIn (h : b.tree.Resolved) (x : ItemId) :
    Relation.ReflTransGen b.tree.Behind x (b.standIn x) :=
  Relation.ReflTransGen.mono (fun _ _ => behind_of_aliasStep) _ _ (aliases_standIn h x).1

theorem namedFundamental_eq_some_iff {i : Item} :
    namedFundamental i = some type ↔ i.target? = some (.builtin (.fundamental type)) := by
  unfold namedFundamental
  constructor
  · intro h
    split at h
    · next builtin htarget =>
      rw [htarget]
      cases builtin with
      | fundamental type' => exact congrArg _ (congrArg _ (congrArg _ (Option.some.inj h)))
      | _ => cases h
    · cases h
  · intro h
    rw [h]
    rfl

/-- What is no fundamental itself narrows one just in case it is a reference that refines it. -/
theorem narrowed?_eq_some_iff (h : b.tree.Resolved)
    (hne : (b.tree.item x).kind ≠ some .fundamental) :
    b.narrowed? x = some type ↔ b.tree.Refines x type := by
  obtain ⟨last, hends, _⟩ := h.ends x
  unfold narrowed?
  rw [ItemTree.chainEnd_eq_ok_iff.2 hends]
  dsimp only
  constructor
  · intro hn
    split at hn
    · next hc =>
      have hk : (b.tree.item x).kind = some .reference := by
        by_contra hk
        cases hends.unique (.halt (ItemTree.referenceStep_of_ne hk))
        exact hne hc.1
      exact ⟨hk, hc.2, last, h.wellFormed.regular.refers_of_ends hends, hc.1,
        namedFundamental_eq_some_iff.1 hn⟩
    · cases hn
  · rintro ⟨_, haugmenting, last', hpath, hk', htarget⟩
    have hends' : Ends b.tree.referenceStep last' (.item last') :=
      .halt (ItemTree.referenceStep_of_ne (by simp [hk']))
    have hfollow := hends.follow
      (Relation.ReflTransGen.mono (fun _ _ => ItemTree.follows_of_refers) _ _ hpath)
    cases hfollow.unique hends'
    rw [if_pos ⟨hk', haugmenting⟩]
    exact namedFundamental_eq_some_iff.2 htarget

theorem narrowed?_of_list (h : b.tree.Resolved) (hk : (b.tree.item x).kind = some .list) :
    b.narrowed? x = none := by
  by_contra hn
  obtain ⟨type, htype⟩ := Option.ne_none_iff_exists'.1 hn
  have hk' := ((narrowed?_eq_some_iff h (by simp [hk])).1 htype).kind
  rw [hk] at hk'
  cases hk'

/-- Only references and lists have targets. -/
theorem target_of_linked? {y : ItemId} (h : b.linked? x .target = some y) :
    (b.tree.item x).target? = some (.item y) ∧
      ((b.tree.item x).kind = some .reference ∨ (b.tree.item x).kind = some .list) := by
  have hitem : (b.tree.item x).target?.bind Target.item? = some y →
      (b.tree.item x).target? = some (.item y) := fun hy => by
    obtain ⟨target, htarget, hy⟩ := Option.bind_eq_some_iff.1 hy
    cases target with
    | item z =>
      cases hy
      exact htarget
    | builtin type => cases hy
  unfold linked? at h
  split at h
  · next he => cases he
  · next he => cases he
  · next hk _ => exact ⟨hitem h, .inl hk⟩
  · next hk _ => exact ⟨hitem h, .inr hk⟩
  · cases h

end Blueprint

namespace ItemTree

open Draft

variable {t a : ItemTree} {plugin : Plugin} {options : Options} {P : ItemId → Prop} {c : Compiled}
  {d d' : Draft} {e x : ElementId} {l : Link}

/-! ### Links -/

/-- A link leads to the element of what stands for the item that is linked. -/
theorem BuiltBy.link_eq (h : a.BuiltBy plugin P d d' c) (he : e ∈ c.graph.ids)
    (hl : (c.graph.element e).data.linkAt l = some x) :
    ∃ y, (a.blueprint plugin).linked? (d.itemOf e) l = some y ∧ x ∈ c.graph.ids ∧
      d.itemOf x = (a.blueprint plugin).standIn y := by
  have hdraft : (d.element e).data.linkAt l = some (some x) := by
    rw [← (h.completed.kept.data e).linkAt, (h.element he).data.links, hl]
    rfl
  obtain ⟨y, target, hy, htarget, hid⟩ := h.assembled.linked (h.mem_ids.1 he) hdraft
  cases htarget
  have hi := h.assembled.sound.indexed
  exact ⟨y, hy, h.mem_ids.2 (hi.lt_of_idOf? hid), hi.itemOf_of_idOf? hid⟩

/-- Unless aliases are to stay, no link leads to one. -/
theorem BuiltBy.not_alias (h : a.BuiltBy plugin P d d' c) (hr : a.Resolved)
    (hp : plugin.capabilities.preserveReferences = false) (he : e ∈ c.graph.ids)
    (hl : (c.graph.element e).data.linkAt l = some x) : ¬a.IsAlias (a.origin plugin x) := by
  obtain ⟨y, _, hx, hitem⟩ := h.link_eq he hl
  rw [h.origin_eq hx, hitem]
  exact (Blueprint.firstPlain_standIn (b := a.blueprint plugin) hr hp y).2

/-! ### Types -/

/-- The type of a reference or a list is a ref, or else it has the fundamental type that the
reference narrows. -/
theorem BuiltBy.type_of_link (h : a.BuiltBy plugin P d d' c) (hr : a.Resolved)
    (he : e ∈ c.graph.ids)
    (hk : (c.graph.element e).kind = .reference ∨ (c.graph.element e).kind = .list) :
    ∃ shape, c.graph.typeInfos.get? (c.graph.element e).typeInfo =
        some ⟨(a.blueprint plugin).arityOf (d.itemOf e), shape⟩ ∧
      match (a.blueprint plugin).narrowed? (d.itemOf e) with
      | some type =>
        shape = .scalar ⟨type, Blueprint.constraintsOf (a.item (d.itemOf e)).metadata type⟩
      | none => (a.blueprint plugin).RefersTo d (d.itemOf e) shape := by
  have hkind := h.kind_item he
  have hne : (c.graph.element e).kind ≠ .simple ∧ (c.graph.element e).kind ≠ .variant := by
    rcases hk with hk | hk <;> rw [hk] <;> exact ⟨nofun, nofun⟩
  obtain ⟨info, htyped, hget⟩ := h.typed_of_kind he hne.1 hne.2
  unfold Blueprint.Typed at htyped
  rw [show ((a.blueprint plugin).tree.item (d.itemOf e)).kind = _ from hkind] at htyped
  rcases hk with hk | hk
  · rw [hk] at htyped
    obtain ⟨shape, rfl, hshape⟩ := htyped
    exact ⟨shape, hget, hshape⟩
  · rw [hk] at htyped hkind
    obtain ⟨shape, rfl, hshape⟩ := htyped
    rw [Blueprint.narrowed?_of_list (b := a.blueprint plugin) hr hkind]
    exact ⟨shape, hget, hshape⟩

/-- An alias has the arity of whatever element it leads to. -/
theorem BuiltBy.arity_of_alias (h : a.BuiltBy plugin P d d' c) (ha : a.Admitted) (hs : a.Settled)
    (hx : x ∈ c.graph.ids) (hpath : Relation.TransGen a.Behind (d.itemOf e) (d.itemOf x)) :
    ∃ shape, c.graph.typeInfos.get? (c.graph.element x).typeInfo =
      some ⟨(a.blueprint plugin).arityOf (d.itemOf e), shape⟩ := by
  obtain ⟨y, ⟨_, hrefers⟩, hrest⟩ := Relation.TransGen.head'_iff.1 hpath
  have hregular := ha.resolved.wellFormed.regular
  have hform : (a.item (d.itemOf e)).form = .declaration := ((hregular.items _).suits _ hrefers.1).1
  have hlast : (a.item (d.itemOf x)).isExtension = false := by
    refine ha.not_extension (x := d.itemOf e) (y := y)
      (Blueprint.not_extension_of_form hform nofun) ?_
      (Relation.ReflTransGen.mono (fun _ _ hpq => follows_of_refers hpq.2) _ _ hrest)
    rw [mem_itemReferences, target?_eq_some hrefers.2]
    exact List.mem_singleton_self _
  have hk : (c.graph.element x).kind ≠ .extension := fun hk => by
    have hsuits := (hregular.items _).suits _ ((h.kind_item hx).trans (congrArg some hk))
    unfold Item.isExtension at hlast
    rw [show (a.item (d.itemOf x)).form = .extension from hsuits] at hlast
    cases hlast
  obtain ⟨shape, hget⟩ := h.arity_eq hx hk
  refine ⟨shape, ?_⟩
  unfold Blueprint.arityOf at hget ⊢
  rw [show ((a.blueprint plugin).tree.item (d.itemOf x)).arity = _ from
    hs.arity_eq hpath.to_reflTransGen] at hget
  exact hget

/-! ### All together -/

/-- A reference or a list and the element that it links to. -/
structure LinksTo (a : ItemTree) (plugin : Plugin) (g : Graph) (e x : ElementId) : Prop where
  mem : x ∈ g.ids
  target : ∃ y, (a.item (a.origin plugin e)).target? = some (.item y) ∧
    if plugin.capabilities.preserveReferences then a.origin plugin x = y
    else a.FirstPlain y (a.origin plugin x)
  type : ∃ arity shape, (a.item (a.origin plugin e)).arity = some arity ∧
    g.typeInfos.get? (g.element e).typeInfo = some ⟨arity, shape⟩ ∧
    (∀ type, a.Refines (a.origin plugin e) type → shape =
      .scalar ⟨type, Blueprint.constraintsOf (a.item (a.origin plugin e)).metadata type⟩) ∧
    ((∀ type, ¬a.Refines (a.origin plugin e) type) → shape = .ref (g.element x).typeInfo)
  arity : a.IsAlias (a.origin plugin e) → ∃ arity shape shape',
    g.typeInfos.get? (g.element e).typeInfo = some ⟨arity, shape⟩ ∧
    g.typeInfos.get? (g.element x).typeInfo = some ⟨arity, shape'⟩

theorem BuiltBy.linksTo (h : a.BuiltBy plugin P d d' c) (ha : a.Admitted) (hs : a.Settled)
    (he : e ∈ c.graph.ids) (hl : (c.graph.element e).data.linkAt .target = some x) :
    a.LinksTo plugin c.graph e x := by
  obtain ⟨y, hy, hx, hitem⟩ := h.link_eq he hl
  obtain ⟨htarget, hkinds⟩ := Blueprint.target_of_linked? hy
  have hkind := h.kind_item he
  have hbehind := Blueprint.behind_standIn (b := a.blueprint plugin) ha.resolved y
  obtain ⟨arity, harity⟩ := hs.arities (d.itemOf e) (lt_size_of_kind hkind)
  have hk : (c.graph.element e).kind = .reference ∨ (c.graph.element e).kind = .list :=
    hkinds.imp (h.kind_eq he) (h.kind_eq he)
  obtain ⟨shape, hget, hshape⟩ := h.type_of_link ha.resolved he hk
  have harityOf : (a.blueprint plugin).arityOf (d.itemOf e) = arity := by
    unfold Blueprint.arityOf
    rw [show ((a.blueprint plugin).tree.item (d.itemOf e)).arity = _ from harity]
    rfl
  rw [harityOf] at hget
  have hrefines : ∀ type, (a.blueprint plugin).narrowed? (d.itemOf e) = some type ↔
      a.Refines (d.itemOf e) type := fun type =>
    Blueprint.narrowed?_eq_some_iff (b := a.blueprint plugin) ha.resolved (by
      rcases hkinds with hk | hk <;> rw [hk] <;> simp)
  refine ⟨hx, ⟨y, ?_, ?_⟩, ⟨arity, shape, ?_, hget, fun type hr => ?_, fun hn => ?_⟩,
    fun halias => ?_⟩
  · rw [h.origin_eq he]
    exact htarget
  · rw [h.origin_eq hx, hitem]
    split
    · next hp => exact Blueprint.standIn_eq_of_not_isAlias (.inr hp)
    · next hp =>
      exact Blueprint.firstPlain_standIn (b := a.blueprint plugin) ha.resolved
        (Bool.eq_false_iff.2 hp) y
  · rw [h.origin_eq he]
    exact harity
  · rw [h.origin_eq he] at hr ⊢
    rw [(hrefines type).2 hr] at hshape
    exact hshape
  · rw [h.origin_eq he] at hn
    have hnone : (a.blueprint plugin).narrowed? (d.itemOf e) = none :=
      Option.eq_none_iff_forall_ne_some.2 fun type htype => hn type ((hrefines type).1 htype)
    rw [hnone] at hshape
    obtain ⟨z, place, hz, hplace, rfl⟩ := hshape
    rw [htarget] at hz
    cases hz
    rw [← hitem, h.place_eq hx] at hplace
    rw [Option.some.inj hplace]
  · rw [h.origin_eq he] at halias
    obtain ⟨shape', hget'⟩ := h.arity_of_alias ha hs hx (e := e) (by
      rw [hitem]
      exact .head' ⟨halias, halias.1, htarget⟩ hbehind)
    exact ⟨arity, shape, shape', hget, harityOf ▸ hget'⟩

/-- **Links and types of references agree.** A reference or a list in a compiled graph is related to
the element that it links to as `LinksTo` says, and unless aliases are to stay nothing in the graph
links to one. -/
theorem compile_links (h : t.Produced) (hok : t.compile plugin options = .ok c) :
    ∃ a, t.compileTree plugin options = .ok (a, c) ∧
      (∀ e ∈ c.graph.ids, ∀ x, ((c.graph.element e).data = .reference x ∨
        (c.graph.element e).data = .list x) → a.LinksTo plugin c.graph e x) ∧
      (plugin.capabilities.preserveReferences = false → ∀ e ∈ c.graph.ids, ∀ l x,
        (c.graph.element e).data.linkAt l = some x → ¬a.IsAlias (a.origin plugin x)) := by
  obtain ⟨a, d, d', htree, ha, _, hbuilt⟩ := compile_built h.reachable hok
  refine ⟨a, htree, fun e he x hdata => ?_, fun hp e he l x hl =>
    hbuilt.not_alias ha.resolved hp he hl⟩
  refine hbuilt.linksTo ha (h.settled htree) he ?_
  rcases hdata with hdata | hdata <;> rw [hdata] <;> rfl

/-- What counts, an alias of it, a refined reference to the alias, and a list of what the alias
names. -/
def countsByAlias : ItemTree :=
  ((((ofSource "").push root
    ((Item.declaration (some "counts") "int").withArity .zeroOrMore)).push root
    (Item.declaration (some "alias") "counts")).push root
    ((Item.declaration (some "small") "alias").withMetadata "max" (.int 9))).push root
    ((Item.declaration (some "table") "alias").withArity .zeroOrMore)

/-- The list links past the alias to what counts. -/
theorem countsByAlias_linked :
    countsByAlias.Produced ∧ ∃ a c,
      countsByAlias.compileTree { name := "any", capabilities := .allElements } {} = .ok (a, c) ∧
      countsByAlias.compile { name := "any", capabilities := .allElements } {} = .ok c ∧
      (c.graph.element ⟨4⟩).data = .list ⟨1⟩ ∧
      a.LinksTo { name := "any", capabilities := .allElements } c.graph ⟨4⟩ ⟨1⟩ := by
  have hcounts := (Item.Declared.declaration (some "counts") "int").withArity .zeroOrMore
  have halias := Item.Declared.declaration (some "alias") "counts"
  have hsmall := (Item.Declared.declaration (some "small") "alias").withMetadata "max" (.int 9)
  have htable := (Item.Declared.declaration (some "table") "alias").withArity .zeroOrMore
  have hproduced : countsByAlias.Produced :=
    ((((Produced.source "").push (p := root) (by decide) hcounts).push (p := root) (by decide)
      halias).push (p := root) (by decide) hsmall).push (p := root) (by decide) htable
  have hfacts : (countsByAlias.compile { name := "any", capabilities := .allElements }
      {}).toOption.map (fun c => (c.graph.size, (c.graph.element ⟨4⟩).kind,
        (c.graph.element ⟨4⟩).data.linkAt .target)) = some (5, .list, some ⟨1⟩) := by
    decide +kernel
  obtain ⟨c, hc, hfacts⟩ := Option.map_eq_some_iff.1 hfacts
  simp only [Prod.mk.injEq] at hfacts
  obtain ⟨hsize, hk, htarget⟩ := hfacts
  have he : (⟨4⟩ : ElementId) ∈ c.graph.ids := by simp [Graph.ids, hsize]
  have hdata : (c.graph.element ⟨4⟩).data = .list ⟨1⟩ := by
    cases hd : (c.graph.element ⟨4⟩).data with
    | list target =>
      rw [hd] at htarget
      cases htarget
      rfl
    | _ =>
      unfold Element.kind at hk
      rw [hd] at hk
      cases hk
  obtain ⟨a, htree, hlinks, _⟩ := compile_links hproduced (eq_ok_of_toOption hc)
  exact ⟨hproduced, a, c, htree, eq_ok_of_toOption hc, hdata, hlinks _ he _ (.inr hdata)⟩

end ItemTree
end Schemata
