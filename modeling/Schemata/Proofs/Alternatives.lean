import Schemata.Proofs.Draft.Flattening
import Schemata.Proofs.Readmission
import Schemata.Proofs.References
import Schemata.Proofs.Values

/-! The alternatives of variants are single values.

An admission takes an alternative only if it occurs exactly once. What a finished graph lists
are the types of other items, of whatever the alternatives stand for, in lists that have been
flattened. But an alias occurs as often as what it stands for, and no pass that completes a
draft lists what has not been listed before. -/
namespace Schemata

namespace TypeInfoArena

variable {arena arena' : TypeInfoArena} {place q : TypeInfoId} {alternatives : List TypeInfoId}

theorem SameNesting.listed (h : arena.SameNesting arena') (hq : arena'.Listed q) :
    arena.Listed q := by
  obtain ⟨p, alternatives, hl, hmem⟩ := hq
  exact ⟨p, alternatives, h.alternatives? p ▸ hl, hmem⟩

theorem listed_of_flattenAt (hq : (arena.flattenAt place).Listed q) : arena.Listed q := by
  obtain ⟨p, alternatives, halt, hmem⟩ := hq
  obtain ⟨arity, hp⟩ := alternatives?_eq_some_iff.1 halt
  rcases arena.get?_flattenAt place p with he | ⟨_, _, _, he⟩
  · exact ⟨p, alternatives, alternatives?_eq_some_iff.2 ⟨arity, he.symm.trans hp⟩, hmem⟩
  · rw [he] at hp
    cases hp
    exact listed_of_mem_flattenFrom _ _ _ q hmem

end TypeInfoArena

/-! ### From pass to pass -/

namespace Draft

variable {d : Draft} {root : ElementId} {q : TypeInfoId}

theorem listed_of_flattenVariants (hq : (d.flattenVariants root).typeInfos.Listed q) :
    d.typeInfos.Listed q := by
  refine foldl_inv (fun _ (d' : Draft) => d'.typeInfos.Listed q → d.typeInfos.Listed q)
    (fun hq => hq) (fun done id rest d' _ hd hq => hd ?_) hq
  unfold flattenVariant at hq
  split at hq
  · exact TypeInfoArena.listed_of_flattenAt hq
  · exact hq

end Draft

/-! ### The alternatives of variants -/

namespace Blueprint

open Draft

variable {b : Blueprint} {P : ItemId → Prop} {root : ElementId} {d : Draft}
  {place q : TypeInfoId}

/-- Where the assembly has alternatives, they are the places of what stands for those of a
variant. -/
theorem Assembled.variant_of_alternatives? (h : b.Assembled P root d) (hh : Held d)
    {l : List TypeInfoId} (hl : d.typeInfos.alternatives? place = some l) :
    ∃ x, d.places.find? x = some place ∧ (b.tree.item x).kind = some .variant ∧
      PlacesOf d ((b.tree.item x).alternatives.map b.standIn) l := by
  obtain ⟨arity, hget⟩ := TypeInfoArena.alternatives?_eq_some_iff.1 hl
  have hmem : place ∈ d.places.values ++ d.valuePlaces.values :=
    h.sound.indexed.places.symm.subset
      ((TypeInfoArena.mem_ids _ _).2 (TypeInfoArena.index_lt_of_get? hget))
  rcases List.mem_append.1 hmem with hmem | hmem
  · obtain ⟨x, hp⟩ := (OrderedMap.mem_values_iff _ _).1 hmem
    obtain ⟨info, hinfo, htyped⟩ := h.typed hh hp
    obtain rfl : info = ⟨arity, .anyOf l⟩ := Option.some.inj (hinfo.symm.trans hget)
    have hk := (kind_of_typed htyped).2 l rfl
    unfold Typed at htyped
    rw [hk] at htyped
    obtain ⟨places, hplaces, he⟩ := htyped
    cases he
    exact ⟨x, hp, hk, hplaces⟩
  · -- a value has a scalar or a ref, or waits for one
    obtain ⟨x, hp⟩ := (OrderedMap.mem_values_iff _ _).1 hmem
    have hvalued := h.valued hh hp
    unfold Valued at hvalued
    split at hvalued
    · obtain ⟨_, _, hvalue⟩ := hvalued
      cases hget.symm.trans hvalue
    · obtain ⟨_, _, _, _, _, hvalue⟩ := hvalued
      split at hvalue
      · cases hget.symm.trans hvalue
      · cases hget.symm.trans (h.sound.indexed.narrowed place _ hvalue).1

/-- What the assembly lists are the places of what stands for alternatives of variants. -/
theorem Assembled.alternative_of_listed (h : b.Assembled P root d) (hh : Held d)
    (hq : d.typeInfos.Listed q) : ∃ x y, (b.tree.item x).kind = some .variant ∧
      y ∈ (b.tree.item x).alternatives ∧ d.places.find? (b.standIn y) = some q := by
  obtain ⟨place, l, hl, hq⟩ := hq
  obtain ⟨x, _, hk, hplaces⟩ := h.variant_of_alternatives? hh hl
  obtain ⟨z, hz, hplace⟩ := exists_of_mem_right hplaces hq
  obtain ⟨y, hy, rfl⟩ := List.mem_map.1 hz
  exact ⟨x, y, hk, hy, hplace⟩

end Blueprint

namespace ItemTree

open Draft

variable {t t' a : ItemTree} {plugin : Plugin} {options : Options} {P : ItemId → Prop}
  {d d' : Draft} {c : Compiled} {x y : ItemId} {place q : TypeInfoId}
  {alternatives : List TypeInfoId}

/-! ### What an admission checks -/

/-- What an alternative is expanded to are alternatives. -/
theorem exists_of_expansion {expanded : List ItemId} (h : t.expansion y = some expanded) :
    (t.item y).arity.all Arity.isExactlyOne ∧ ∃ z, expanded = (t.item z).alternatives := by
  unfold expansion at h
  split at h
  · next z _ =>
    split at h
    · next hone => exact ⟨hone, z, (Option.some.inj h).symm⟩
    · cases h
  · cases h

/-- The alternatives of a variant are all that expansions lead to, but for those that are
expanded. -/
theorem Rooted.mem_flatAlternatives_iff (h : t.Rooted) : y ∈ t.flatAlternatives x ↔
    Search.Reachable (fun a => (t.expansion a).getD []) (t.item x).alternatives y ∧
      t.expansion y = none := by
  have hlt : ∀ z, ∀ a ∈ (t.item z).alternatives, a ∈ t.ids := fun z a ha =>
    (t.mem_ids a).2 (h.listed z a (List.mem_append_left _ ha)).1
  have hclosed : Search.Closed (fun a => (t.expansion a).getD []) t.ids := fun a _ b hb => by
    cases he : t.expansion a with
    | none => simp [he] at hb
    | some expanded =>
      obtain ⟨_, z, rfl⟩ := exists_of_expansion he
      exact hlt z b (by simpa [he] using hb)
  unfold flatAlternatives
  rw [List.mem_filter, Search.mem_reach_iff hclosed (by simp [ids]) (hlt x),
    Option.isNone_iff_eq_none]

/-- Each alternative of a variant that has passed its check occurs exactly once. -/
theorem Rooted.arity_of_checkAlternatives (h : t.Rooted) (hok : t.checkAlternatives x = .ok ())
    (hk : (t.item x).kind = some .variant) (hy : y ∈ (t.item x).alternatives) :
    (t.item y).arity.getD .one = .one := by
  suffices hone : ((t.item y).arity.getD .one).isExactlyOne from of_decide_eq_true hone
  cases he : t.expansion y with
  | some expanded =>
    have hall := (exists_of_expansion he).1
    cases harity : (t.item y).arity with
    | none => rfl
    | some arity => simpa [harity] using hall
  | none =>
    unfold checkAlternatives at hok
    rw [if_pos hk] at hok
    have hcheck := forM_eq_ok hok y
      (h.mem_flatAlternatives_iff.2 ⟨⟨y, hy, .refl⟩, he⟩)
    unfold checkAlternative at hcheck
    by_contra hn
    simp [hn] at hcheck

/-- All variants of an admitted tree have passed their check. -/
theorem checkAlternatives_admitAll (hi : ∀ id, (t.item id).isIgnored → (t.item id).isExtension)
    (h : t.admitAll plugin options = .ok t') (hx : x ∈ t.walk)
    (hn : (t.item x).isExtension = false) : t'.checkAlternatives x = .ok () := by
  have hpass : ∀ t₁ t₂ t₃ x, t.Retyped t₁ → True → Checked plugin options t₁ x t₂ t₃ →
      t.checkAlternatives x = .ok () := fun t₁ _ _ x hr _ hc => by
    rw [← hr.talliesWith.checkAlternatives]
    exact hc.alternatives
  obtain ⟨hr, _, hall⟩ := admitAll_each hi trivial (fun _ _ _ _ _ _ => trivial) hpass h
  rw [hr.talliesWith.checkAlternatives]
  exact hall x hx hn

/-- After a compilation each alternative occurs exactly once. -/
theorem Reachable.arity_of_alternative (h : t.Reachable)
    (htree : t.compileTree plugin options = .ok (a, c)) (hy : y ∈ (a.item x).alternatives) :
    (a.item y).arity.getD .one = .one := by
  obtain ⟨hadmitted, _⟩ := compileTree_ok h htree
  obtain ⟨r, hr, hadmit, _⟩ := compileTree_stages htree
  obtain ⟨_, hresolved⟩ := resolve_ok h.wellFormed hr
  have hretyped := retyped_admitAll hadmit
  have hrooted : a.Rooted := hadmitted.resolved.wellFormed.rooted
  have hk : (a.item x).kind = some .variant :=
    Blueprint.kind_of_alternatives (b := a.blueprint plugin) hadmitted.resolved hy
  have hx : x ∈ r.walk := hretyped.alike.walk ▸ hrooted.mem_walk_iff.2 (lt_size_of_kind hk)
  have hext : (r.item x).isExtension = false := by
    rw [← hretyped.field Item.isExtension fun _ _ _ => rfl]
    have hform : (a.item x).form = .declaration :=
      ((hadmitted.resolved.wellFormed.regular.items x).suits _ hk).1
    simp [Item.isExtension, hform]
  exact hrooted.arity_of_checkAlternatives (checkAlternatives_admitAll
    (fun id => (hresolved.wellFormed.regular.items id).ignored) hadmit hx hext) hk hy

/-! ### What is listed in the end -/

/-- All alternatives of a finished graph are those of the assembled draft, flattened. -/
theorem flattened_of_build (h : t.build plugin = .ok c) (hbuilt : t.BuiltBy plugin P d d' c) :
    ∃ d₂, d.Kept d₂ ∧ d.typeInfos.SameNesting d₂.typeInfos ∧
      ∀ p, (d₂.flattenVariants c.root).typeInfos.get? p = c.graph.typeInfos.get? p := by
  obtain ⟨⟨root, d₀⟩, hrun, h⟩ := bind_eq_ok h
  obtain ⟨d₁, h₁, h⟩ := bind_eq_ok h
  obtain ⟨d₂, h₂, h⟩ := bind_eq_ok h
  obtain ⟨g, hg, h⟩ := bind_eq_ok h
  cases h
  obtain rfl : d₀ = d := congrArg Prod.snd (Except.ok.inj (hrun.symm.trans hbuilt.run))
  have hentries := takeAllEntries_ok hbuilt.assembled.sound.indexed h₁
  have hunnamed : d₁.Unnamed := fun id attributes name hdata =>
    hbuilt.assembled.unnamed id attributes name ((hentries.data id).symm.trans hdata)
  have hvalues := settleAllValues_ok hentries.indexed hunnamed h₂
  exact ⟨d₂, hentries.kept.trans hvalues.kept,
    hentries.typeInfos ▸ sameNesting_settleAllValues hentries.indexed hunnamed h₂,
    fun p => ((finish_ok hg).types p).symm⟩

/-- An alternative in a finished graph was listed when the draft was assembled. -/
theorem listed_of_build (h : t.build plugin = .ok c) (hbuilt : t.BuiltBy plugin P d d' c)
    {arity : Arity} (hget : c.graph.typeInfos.get? place = some ⟨arity, .anyOf alternatives⟩)
    (hq : q ∈ alternatives) : d.typeInfos.Listed q := by
  obtain ⟨d₂, _, hsame, htypes⟩ := flattened_of_build h hbuilt
  exact hsame.listed (listed_of_flattenVariants ⟨place, alternatives,
    TypeInfoArena.alternatives?_eq_some_iff.2 ⟨arity, (htypes place).trans hget⟩, hq⟩)

/-- The type of what stands for an item that occurs once occurs once. -/
theorem BuiltBy.arity_of_standIn (h : a.BuiltBy plugin P d d' c) (hr : a.Resolved)
    (hs : a.Settled) (hone : (a.item y).arity.getD .one = .one)
    (hp : d.places.find? ((a.blueprint plugin).standIn y) = some q) :
    ∃ shape, c.graph.typeInfos.get? q = some ⟨.one, shape⟩ := by
  obtain ⟨e, he, _, hitem, rfl⟩ := h.exists_of_place hp
  by_cases hk : (c.graph.element e).kind = .extension
  · obtain ⟨info, htyped, hget⟩ := h.typed_of_kind he (by simp [hk]) (by simp [hk])
    have hkind := h.kind_item he
    rw [hk] at hkind
    unfold Blueprint.Typed at htyped
    rw [show ((a.blueprint plugin).tree.item (d.itemOf e)).kind = _ from hkind] at htyped
    exact ⟨.extension, htyped ▸ hget⟩
  · obtain ⟨shape, hget⟩ := h.arity_eq he hk
    have hsame := hs.arity_eq (Blueprint.behind_standIn (b := a.blueprint plugin) hr y)
    have harity : (a.blueprint plugin).arityOf (d.itemOf e) = .one := by
      unfold Blueprint.arityOf
      rw [hitem, show ((a.blueprint plugin).tree.item _).arity = _ from hsame]
      exact hone
    exact ⟨shape, harity ▸ hget⟩

/-! ### All together -/

/-- **Alternatives occur once.** Whatever a type of a compiled graph lists as an alternative, be it
one of its own or one that was nested, is a type that occurs exactly once. -/
theorem compile_alternatives (h : t.Produced) (hok : t.compile plugin options = .ok c)
    {arity : Arity} (hget : c.graph.typeInfos.get? place = some ⟨arity, .anyOf alternatives⟩) :
    ∀ q ∈ alternatives, ∃ shape, c.graph.typeInfos.get? q = some ⟨.one, shape⟩ := by
  obtain ⟨a, d, d', htree, ha, _, hbuilt⟩ := compile_built h.reachable hok
  obtain ⟨_, _, _, hbuild⟩ := compileTree_stages htree
  intro q hq
  obtain ⟨x, y, _, hy, hp⟩ := hbuilt.assembled.alternative_of_listed hbuilt.held
    (listed_of_build hbuild hbuilt hget hq)
  exact hbuilt.arity_of_standIn ha.resolved (h.settled htree)
    (h.reachable.arity_of_alternative htree hy) hp

/-- Numbers or texts, an alias of that, and the alias or a truth value. -/
def nestedChoice : ItemTree :=
  (((ofSource "").push root
    (Item.variant (some "inner") [⟨"int", ∅, .builtin⟩, ⟨"string", ∅, .builtin⟩])).push root
    (Item.declaration (some "alias") "inner")).push root
    (Item.variant (some "outer") [⟨"alias", ∅, .builtin⟩, ⟨"bool", ∅, .builtin⟩])

/-- Past an alias that has an element of its own, numbers and texts are listed together with truth
values, each once. -/
theorem nestedChoice_single : nestedChoice.Produced ∧ ∃ c arity,
    nestedChoice.compile { name := "any", capabilities :=
      { Capabilities.allElements with preserveReferences := true } } {} = .ok c ∧
    c.graph.typeInfos.get? ⟨5⟩ = some ⟨arity, .anyOf [⟨2⟩, ⟨3⟩, ⟨7⟩]⟩ ∧
    ∀ q ∈ [⟨2⟩, ⟨3⟩, ⟨7⟩], ∃ shape, c.graph.typeInfos.get? q = some ⟨.one, shape⟩ := by
  have hinner := Item.Declared.variant (some "inner")
    [⟨"int", ∅, .builtin⟩, ⟨"string", ∅, .builtin⟩]
  have halias := Item.Declared.declaration (some "alias") "inner"
  have houter := Item.Declared.variant (some "outer")
    [⟨"alias", ∅, .builtin⟩, ⟨"bool", ∅, .builtin⟩]
  have hproduced : nestedChoice.Produced :=
    (((Produced.source "").push (p := root) (by decide) hinner).push (p := root) (by decide)
      halias).push (p := root) (by decide) houter
  have hlists : (nestedChoice.compile { name := "any", capabilities :=
      { Capabilities.allElements with preserveReferences := true } } {}).toOption.map (fun c =>
        c.graph.typeInfos.toArena.alternatives? ⟨5⟩) = some (some [⟨2⟩, ⟨3⟩, ⟨7⟩]) := by
    decide +kernel
  obtain ⟨c, hc, hlist⟩ := Option.map_eq_some_iff.1 hlists
  obtain ⟨arity, hget⟩ := TypeInfoArena.alternatives?_eq_some_iff.1 hlist
  rw [TypeInfoTable.get?_toArena] at hget
  exact ⟨hproduced, c, arity, eq_ok_of_toOption hc, hget,
    compile_alternatives hproduced (eq_ok_of_toOption hc) hget⟩

end ItemTree
end Schemata
