import Schemata.Proofs.Nesting
import Schemata.Proofs.Walks

/-! Flattened variants.

A variant lists the places of what stands for its alternatives, and what is nested at these places
is nested in items as well: the walk along refs from a place is the chain of references from the
item, but for the aliases that were left out. So what flattening makes of a list can be said of the
alternatives that were written (`Flattens`): all that stand for no variant are in it, and one that
does is left only if the variant comes up without it. Where every variant is nested once, the list
has just the alternatives that an admission looks at. -/
namespace Schemata

open Search TypeInfoArena

namespace Blueprint

open Draft ItemTree

variable {b : Blueprint} {P : ItemId → Prop} {root : ElementId} {d : Draft} {v w x y z : ItemId}
  {p q : TypeInfoId}

/-! ### Places of variants -/

/-- An item of arity one occurs exactly once. -/
theorem single_iff : b.tree.Single x ↔ (b.arityOf x).isExactlyOne :=
  (decide_eq_true_iff (p := b.arityOf x = .one)).symm

section Places

variable (h : b.Assembled P root d) (hh : Held d)
include h hh

/-- Alternatives are found at the place of a variant. -/
theorem Assembled.variant_of_get? (hx : d.places.find? x = some p) {arity : Arity}
    {l : List TypeInfoId} (hget : d.typeInfos.get? p = some ⟨arity, .anyOf l⟩) :
    (b.tree.item x).kind = some .variant ∧ arity = b.arityOf x ∧
      PlacesOf d ((b.tree.item x).alternatives.map b.standIn) l := by
  obtain ⟨info, hinfo, htyped⟩ := h.typed hh hx
  obtain rfl : info = ⟨arity, .anyOf l⟩ := Option.some.inj (hinfo.symm.trans hget)
  have hk := (kind_of_typed htyped).2 l rfl
  unfold Typed at htyped
  rw [hk] at htyped
  obtain ⟨places, hplaces, he⟩ := htyped
  cases he
  exact ⟨hk, rfl, hplaces⟩

/-- The place of a variant has alternatives. -/
theorem Assembled.get?_of_variant (hx : d.places.find? x = some p)
    (hk : (b.tree.item x).kind = some .variant) :
    ∃ l, d.typeInfos.get? p = some ⟨b.arityOf x, .anyOf l⟩ := by
  obtain ⟨info, hinfo, htyped⟩ := h.typed hh hx
  unfold Typed at htyped
  rw [hk] at htyped
  obtain ⟨l, _, rfl⟩ := htyped
  exact ⟨l, hinfo⟩

/-- A ref is found at the place of a reference or a list, and leads where its target stands. -/
theorem Assembled.refers_of_get? (hx : d.places.find? x = some p) {arity : Arity}
    (hget : d.typeInfos.get? p = some ⟨arity, .ref q⟩) :
    ((b.tree.item x).kind = some .reference ∨ (b.tree.item x).kind = some .list) ∧
      arity = b.arityOf x ∧ ∃ z, (b.tree.item x).target? = some (.item z) ∧
        d.places.find? (b.standIn z) = some q := by
  obtain ⟨info, hinfo, htyped⟩ := h.typed hh hx
  obtain rfl : info = ⟨arity, .ref q⟩ := Option.some.inj (hinfo.symm.trans hget)
  have hrefers : b.RefersTo d x (.ref q) → ∃ z, (b.tree.item x).target? = some (.item z) ∧
      d.places.find? (b.standIn z) = some q := by
    rintro ⟨z, place, htarget, hplace, he⟩
    cases he
    exact ⟨z, htarget, hplace⟩
  unfold Typed at htyped
  cases hk : (b.tree.item x).kind with
  | none =>
    rw [hk] at htyped
    cases htyped
  | some k =>
    rw [hk] at htyped
    cases k with
    | reference =>
      obtain ⟨shape, he, hshape⟩ := htyped
      cases he
      split at hshape
      · cases hshape
      · exact ⟨.inl rfl, rfl, hrefers hshape⟩
    | list =>
      obtain ⟨shape, he, hshape⟩ := htyped
      cases he
      exact ⟨.inr rfl, rfl, hrefers hshape⟩
    | compound | simple =>
      obtain ⟨_, _, _, _, he⟩ := htyped
      cases he
    | fundamental | variant =>
      obtain ⟨_, _, he⟩ := htyped
      cases he
    | any | custom | extension => cases htyped

/-- The place of a reference that stands for a variant has a ref. -/
theorem Assembled.get?_of_refers (hx : d.places.find? x = some p)
    (hxz : b.tree.Refers x z) (hz : b.tree.SinglyFor z w) :
    ∃ q, d.places.find? (b.standIn z) = some q ∧
      d.typeInfos.get? p = some ⟨b.arityOf x, .ref q⟩ := by
  obtain ⟨info, hinfo, htyped⟩ := h.typed hh hx
  have hnone : b.narrowed? x = none := by
    unfold narrowed?
    rw [chainEnd_eq_ok_iff.2 (.go (follows_of_refers hxz) hz.ends)]
    exact if_neg fun hc => by simp [hz.kind] at hc
  unfold Typed at htyped
  rw [hxz.1] at htyped
  obtain ⟨shape, rfl, hshape⟩ := htyped
  rw [hnone] at hshape
  obtain ⟨z', q, htarget, hq, rfl⟩ := hshape
  obtain rfl : z = z' := Target.item.inj (Option.some.inj (hxz.2.symm.trans htarget))
  exact ⟨q, hq, hinfo⟩

end Places

/-! ### What is nested at a place -/

/-- A draft assembled, without aliases, from a settled tree whose lists hold several values. -/
structure Faithful (b : Blueprint) (P : ItemId → Prop) (root : ElementId) (d : Draft) : Prop where
  assembled : b.Assembled P root d
  held : Held d
  resolved : b.tree.Resolved
  settled : b.tree.Settled
  aliases : b.preserveReferences = false
  lists : ∀ x, (b.tree.item x).kind = some .list → ¬b.tree.Single x

section Faithful

variable (h : b.Faithful P root d)
include h

/-- What is nested at the place of an item are the alternatives of a variant that it stands for. -/
theorem Faithful.singlyFor_of_nested (hx : d.places.find? x = some p)
    (hq : d.typeInfos.nested p = some q) :
    ∃ w, b.tree.SinglyFor x w ∧ d.places.find? w = some q := by
  replace hq := nested_eq_some_iff.1 hq
  generalize hinner : some q = inner at hq
  induction hq generalizing x with
  | @halt p inner hstep =>
    subst hinner
    obtain ⟨arity, l, hget, hone, rfl⟩ := get?_of_halt hstep
    obtain ⟨hk, rfl, _⟩ := h.assembled.variant_of_get? h.held hx hget
    exact ⟨x, .variant hk (single_iff.2 hone), hx⟩
  | @go p target inner hstep _ ih =>
    obtain ⟨arity, hget, hone⟩ := get?_of_go hstep
    obtain ⟨hk, rfl, z, htarget, hz⟩ := h.assembled.refers_of_get? h.held hx hget
    have hsingle := single_iff.2 hone
    have hkind := hk.resolve_right fun hk => h.lists x hk hsingle
    obtain ⟨w, hw, hplace⟩ := ih hz hinner
    exact ⟨w, .refers hsingle ⟨hkind, htarget⟩
      ((h.settled.singlyFor_iff (behind_standIn h.resolved z)).2 hw), hplace⟩

/-- Whatever stands for a variant, the alternatives of that are nested at its place. -/
theorem Faithful.nested_of_singlyFor (hy : b.tree.SinglyFor y w)
    (hp : d.places.find? (b.standIn y) = some p) :
    ∃ q, d.places.find? w = some q ∧ d.typeInfos.nested p = some q := by
  induction hy generalizing p with
  | @variant v hk hone =>
    have halias : b.isAlias v = false := by
      unfold isAlias
      simp [hk]
    rw [standIn_eq_of_not_isAlias (.inl halias)] at hp
    obtain ⟨l, hget⟩ := h.assembled.get?_of_variant h.held hp hk
    exact ⟨p, hp, nested_eq_some_iff.2 (.halt (nestStep_of_anyOf hget (single_iff.1 hone)))⟩
  | @refers y z v hone hyz hz ih =>
    cases halias : b.isAlias y with
    | true =>
      have hstep := aliasStep_of_follows h.resolved halias (follows_of_refers hyz)
      exact ih (standIn_of_aliasStep h.resolved h.aliases hstep ▸ hp)
    | false =>
      rw [standIn_eq_of_not_isAlias (.inl halias)] at hp
      obtain ⟨target, htarget, hget⟩ := h.assembled.get?_of_refers h.held hp hyz hz
      obtain ⟨q, hq, hnested⟩ := ih htarget
      exact ⟨q, hq, nested_eq_some_iff.2 (.go (nestStep_of_ref hget (single_iff.1 hone))
        (nested_eq_some_iff.1 hnested))⟩

theorem Faithful.nested_iff (hy : d.places.find? (b.standIn y) = some p) :
    d.typeInfos.nested p = some q ↔ ∃ w, b.tree.SinglyFor y w ∧ d.places.find? w = some q := by
  constructor
  · intro hq
    obtain ⟨w, hw, hplace⟩ := h.singlyFor_of_nested hy hq
    exact ⟨w, (h.settled.singlyFor_iff (behind_standIn h.resolved y)).2 hw, hplace⟩
  · rintro ⟨w, hw, hplace⟩
    obtain ⟨q', hq', hnested⟩ := h.nested_of_singlyFor hw hy
    rw [hnested, ← hq', hplace]

theorem Faithful.nested_eq_none (hy : d.places.find? (b.standIn y) = some p)
    (hnot : ∀ w, ¬b.tree.SinglyFor y w) : d.typeInfos.nested p = none :=
  Option.eq_none_iff_forall_ne_some.2 fun q hq => by
    obtain ⟨w, hw, _⟩ := (h.nested_iff hy).1 hq
    exact hnot w hw

end Faithful

end Blueprint

/-! ### Choices of an assembled draft -/

namespace Draft

variable {d : Draft} {x : ItemId} {p : TypeInfoId}

/-- The item whose type is at a place. -/
def itemAt? (d : Draft) (p : TypeInfoId) : Option ItemId :=
  (d.places.entries.find? fun e => e.2 = p).map Prod.fst

theorem itemAt?_eq_some_iff (hi : d.Indexed) :
    d.itemAt? p = some x ↔ d.places.find? x = some p := by
  have hfound : ∀ z, d.itemAt? p = some z → d.places.find? z = some p := fun z hz => by
    obtain ⟨e, he, rfl⟩ := Option.map_eq_some_iff.1 hz
    have hp : e.2 = p := by simpa using List.find?_some he
    exact hp ▸ (OrderedMap.find?_eq_some_iff _ _ _).2 (List.mem_of_find?_eq_some he)
  refine ⟨hfound x, fun hx => ?_⟩
  cases hz : d.itemAt? p with
  | some z => rw [hi.place_inj (hfound z hz) hx]
  | none =>
    have hnone := List.find?_eq_none.1 (Option.map_eq_none_iff.1 hz) (x, p)
      ((OrderedMap.find?_eq_some_iff _ _ _).1 hx)
    simp at hnone

/-- The alternatives of variants, by the places of these. -/
def choices (d : Draft) (b : Blueprint) : Choices ItemId where
  entries p := ((d.itemAt? p).map fun x => (b.tree.item x).alternatives).getD []
  place y := (d.places.find? (b.standIn y)).getD default
  inner := d.typeInfos.nested

end Draft

namespace Blueprint

open Draft ItemTree

variable {b : Blueprint} {P : ItemId → Prop} {root : ElementId} {d : Draft} {v w x y z : ItemId}
  {p q : TypeInfoId}

theorem mem_entries_iff (hi : d.Indexed) : y ∈ (d.choices b).entries p ↔
    ∃ x, d.places.find? x = some p ∧ y ∈ (b.tree.item x).alternatives := by
  show y ∈ ((d.itemAt? p).map fun x => (b.tree.item x).alternatives).getD [] ↔ _
  simp only [← itemAt?_eq_some_iff hi]
  cases d.itemAt? p <;> simp

theorem entries_choices (hi : d.Indexed) (hx : d.places.find? x = some p) :
    (d.choices b).entries p = (b.tree.item x).alternatives := by
  show ((d.itemAt? p).map _).getD [] = _
  rw [(itemAt?_eq_some_iff hi).2 hx]
  rfl

theorem place_choices (hy : d.places.find? (b.standIn y) = some q) :
    (d.choices b).place y = q := by
  show (d.places.find? (b.standIn y)).getD default = q
  rw [hy]
  rfl

/-- No two variants share an alternative. -/
theorem proper_choices (hi : d.Indexed) (ht : b.tree.Rooted) : (d.choices b).Proper where
  nodup p := by
    show (((d.itemAt? p).map _).getD []).Nodup
    cases d.itemAt? p with
    | none => exact List.nodup_nil
    | some x => exact (List.nodup_append.1 (ht.nodup x)).1
  apart p q y hp hq := by
    obtain ⟨x, hx, hxy⟩ := (mem_entries_iff hi).1 hp
    obtain ⟨z, hz, hzy⟩ := (mem_entries_iff hi).1 hq
    have hxz := (ht.listed x y (List.mem_append_left _ hxy)).2.symm.trans
      (ht.listed z y (List.mem_append_left _ hzy)).2
    obtain rfl := Option.some.inj hxz
    exact Option.some.inj (hx.symm.trans hz)

theorem PlacesOf.eq_map {items : List ItemId} {places : List TypeInfoId}
    (h : PlacesOf d (items.map b.standIn) places) : places = items.map (d.choices b).place := by
  induction items generalizing places with
  | nil =>
    cases h
    rfl
  | cons y rest ih =>
    cases h with
    | cons hy hrest => rw [List.map_cons, place_choices hy, ← ih hrest]

/-- Before variants are flattened, their lists are as they were written. -/
theorem Assembled.holds_choices (h : b.Assembled P root d) (hh : Held d) {arena : TypeInfoArena}
    (hsame : d.typeInfos.SameNesting arena) : (d.choices b).Holds arena where
  nested p := congrFun hsame.nested p
  lists p l hl := by
    rw [hsame.alternatives?] at hl
    obtain ⟨x, hx, _, hplaces⟩ := h.variant_of_alternatives? hh hl
    rw [entries_choices h.sound.indexed hx]
    exact .inl (PlacesOf.eq_map hplaces)

/-! ### Nesting of places and of items -/

section Faithful

variable (h : b.Faithful P root d)
include h

/-- What stands for the alternatives of a variant has a place if the variant has one. -/
theorem Faithful.place_of_alternative (hv : d.places.find? v = some p)
    (hy : y ∈ (b.tree.item v).alternatives) : ∃ q, d.places.find? (b.standIn y) = some q := by
  obtain ⟨l, hget⟩ :=
    h.assembled.get?_of_variant h.held hv (kind_of_alternatives h.resolved hy)
  obtain ⟨_, _, hplaces⟩ := h.assembled.variant_of_get? h.held hv hget
  obtain ⟨q, _, hq⟩ := exists_of_mem_left hplaces (List.mem_map_of_mem hy)
  exact ⟨q, hq⟩

theorem Faithful.nests_iff (hv : d.places.find? v = some p) :
    (d.choices b).Nests p q ↔ ∃ w, b.tree.Nests v w ∧ d.places.find? w = some q := by
  unfold Choices.Nests
  rw [entries_choices h.assembled.sound.indexed hv]
  constructor
  · rintro ⟨y, hy, hq⟩
    obtain ⟨place, hplace⟩ := h.place_of_alternative hv hy
    rw [place_choices hplace] at hq
    obtain ⟨w, hw, hplace⟩ := (h.nested_iff hplace).1 hq
    exact ⟨w, ⟨y, hy, hw⟩, hplace⟩
  · rintro ⟨w, ⟨y, hy, hw⟩, hplace⟩
    obtain ⟨place, hy'⟩ := h.place_of_alternative hv hy
    refine ⟨y, hy, ?_⟩
    rw [place_choices hy']
    exact (h.nested_iff hy').2 ⟨w, hw, hplace⟩

theorem Faithful.places_of_path (hv : d.places.find? v = some p)
    (hvw : Relation.ReflTransGen b.tree.Nests v w) :
    ∃ q, d.places.find? w = some q ∧ Relation.ReflTransGen (d.choices b).Nests p q := by
  induction hvw with
  | refl => exact ⟨p, hv, .refl⟩
  | @tail x w _ hxw ih =>
    obtain ⟨q, hq, hpq⟩ := ih
    obtain ⟨y, hy, hyw⟩ := id hxw
    obtain ⟨place, hplace⟩ := h.place_of_alternative hq hy
    obtain ⟨q', hq', _⟩ := h.nested_of_singlyFor hyw hplace
    exact ⟨q', hq', hpq.tail ((h.nests_iff hq).2 ⟨w, hxw, hq'⟩)⟩

theorem Faithful.path_of_places (hv : d.places.find? v = some p)
    (hpq : Relation.ReflTransGen (d.choices b).Nests p q) :
    ∃ w, d.places.find? w = some q ∧ Relation.ReflTransGen b.tree.Nests v w := by
  induction hpq with
  | refl => exact ⟨v, hv, .refl⟩
  | tail _ hqr ih =>
    obtain ⟨x, hx, hvx⟩ := ih
    obtain ⟨w, hxw, hw⟩ := (h.nests_iff hx).1 hqr
    exact ⟨w, hw, hvx.tail hxw⟩

theorem Faithful.unfolds_iff (hv : d.places.find? v = some p) :
    (d.choices b).Unfolds p y ↔ b.tree.Unfolds v y := by
  have hi := h.assembled.sound.indexed
  constructor
  · rintro ⟨q, hpq, hy⟩
    obtain ⟨w, hw, hvw⟩ := h.path_of_places hv hpq
    exact ⟨w, hvw, entries_choices hi hw ▸ hy⟩
  · rintro ⟨w, hvw, hy⟩
    obtain ⟨q, hw, hpq⟩ := h.places_of_path hv hvw
    exact ⟨q, hpq, (entries_choices hi hw).symm ▸ hy⟩

theorem Faithful.place_of_unfolds (hv : d.places.find? v = some p) (hy : b.tree.Unfolds v y) :
    ∃ q, d.places.find? (b.standIn y) = some q := by
  obtain ⟨w, hvw, hmem⟩ := hy
  obtain ⟨_, hw, _⟩ := h.places_of_path hv hvw
  exact h.place_of_alternative hw hmem

theorem Faithful.surplus_of_places (hv : d.places.find? v = some p)
    (hw : d.places.find? w = some q) (hq : (d.choices b).Surplus p y q) :
    b.tree.Surplus v y w := by
  have hi := h.assembled.sound.indexed
  rcases hq with hcircle | ⟨z, hne, hz, hzq⟩
  · obtain ⟨q', hpath, hstep⟩ := Relation.TransGen.tail'_iff.1 hcircle
    obtain ⟨x, hx, hwx⟩ := h.path_of_places hw hpath
    obtain ⟨w', hxw, hw'⟩ := (h.nests_iff hx).1 hstep
    exact .inl (.tail' hwx (hi.place_inj hw' hw ▸ hxw))
  · have hunfolds := (h.unfolds_iff hv).1 hz
    obtain ⟨place, hplace⟩ := h.place_of_unfolds hv hunfolds
    rw [place_choices hplace] at hzq
    obtain ⟨w', hzw, hw'⟩ := (h.nested_iff hplace).1 hzq
    exact .inr ⟨z, hne, hunfolds, hi.place_inj hw' hw ▸ hzw⟩

end Faithful

end Blueprint

/-- Nothing is nested by flattening, and nothing ceases to be. -/
theorem Draft.nested_flattenVariants (d : Draft) (root : ElementId) :
    (d.flattenVariants root).typeInfos.nested = d.typeInfos.nested := by
  refine foldl_inv (fun _ (d' : Draft) => d'.typeInfos.nested = d.typeInfos.nested) rfl
    fun done id rest d' _ hd => ?_
  unfold flattenVariant
  split
  · exact (nested_flattenAt _ _).trans hd
  · exact hd

namespace ItemTree

open Draft Blueprint

variable {t a : ItemTree} {plugin : Plugin} {options : Options} {P : ItemId → Prop}
  {d d' : Draft} {c : Compiled} {e : ElementId} {v x y z : ItemId} {p q : TypeInfoId}

/-- What occurs several times is not single. -/
theorem not_single_of_isCollection (h : (t.item x).arity.any Arity.isCollection) :
    ¬t.Single x := by
  intro hone
  unfold Single at hone
  cases harity : (t.item x).arity with
  | none =>
    rw [harity] at h
    cases h
  | some arity =>
    rw [harity] at h hone
    obtain rfl : arity = .one := hone
    cases h

/-! ### Types that stand for items -/

/-- A type stands for an item if it is that of the first item on its chain that is no alias. -/
def TypeFor (a : ItemTree) (plugin : Plugin) (g : Graph) (y : ItemId) (q : TypeInfoId) : Prop :=
  ∃ e ∈ g.ids, a.FirstPlain y (a.origin plugin e) ∧ (g.element e).typeInfo = q

theorem FirstPlain.unique (hy : t.FirstPlain x y) (hz : t.FirstPlain x z) : y = z := by
  have hbehind : Relator.RightUnique t.Behind := fun _ _ _ hb hc =>
    Target.item.inj (Option.some.inj (hb.2.2.symm.trans hc.2.2))
  have hhalt : ∀ {v w}, ¬t.IsAlias v → Relation.ReflTransGen t.Behind v w → v = w :=
    fun hv hvw => by
      rcases hvw.cases_head with he | ⟨_, hstep, _⟩
      · exact he
      · exact absurd hstep.1 hv
  rcases Relation.ReflTransGen.total_of_right_unique hbehind hy.1 hz.1 with hyz | hzy
  · exact hhalt hy.2 hyz
  · exact (hhalt hz.2 hzy).symm

theorem BuiltBy.typeFor_iff (h : a.BuiltBy plugin P d d' c) (hr : a.Resolved)
    (hp : plugin.capabilities.preserveReferences = false) : a.TypeFor plugin c.graph y q ↔
      d.places.find? ((a.blueprint plugin).standIn y) = some q := by
  have hplain := firstPlain_standIn (b := a.blueprint plugin) hr hp y
  constructor
  · rintro ⟨e, he, hfirst, rfl⟩
    rw [h.origin_eq he] at hfirst
    rw [← hfirst.unique hplain]
    exact h.place_eq he
  · intro hq
    obtain ⟨e, he, _, hitem, hplace⟩ := h.exists_of_place hq
    exact ⟨e, he, by rw [h.origin_eq he, hitem]; exact hplain, hplace⟩

/-! ### Flat lists -/

/-- What the alternatives `l` of a variant come to, where those that are nested have taken the place
of others. -/
structure Flattens (a : ItemTree) (plugin : Plugin) (g : Graph) (x : ItemId)
    (l : List TypeInfoId) : Prop where
  typed : ∀ y, a.Unfolds x y → ∃! q, a.TypeFor plugin g y q
  /-- What unfolds and stands for no variant is listed, whatever else is. -/
  leaves : ∀ q, q ∈ l ∧ g.typeInfos.toArena.nested q = none ↔
    ∃ y, a.Unfolds x y ∧ (∀ w, ¬a.SinglyFor y w) ∧ a.TypeFor plugin g y q
  /-- Something that stands for a variant is listed only if that comes up without it. -/
  surplus : ∀ q ∈ l, ∀ r, g.typeInfos.toArena.nested q = some r →
    ∃ y w, a.Unfolds x y ∧ a.SinglyFor y w ∧ a.TypeFor plugin g y q ∧ a.Surplus x y w
  /-- So it never is where all variants are nested once. -/
  plain : a.NestsOnce x → ∀ q ∈ l, g.typeInfos.toArena.nested q = none
  /-- Then the list has the alternatives that an admission looks at. -/
  agrees : a.NestsSingly x → a.NestsOnce x →
    ∀ q, q ∈ l ↔ ∃ y ∈ a.flatAlternatives x, a.TypeFor plugin g y q

theorem nested_of_build (h : t.build plugin = .ok c) (hbuilt : t.BuiltBy plugin P d d' c) :
    c.graph.typeInfos.toArena.nested = d.typeInfos.nested := by
  obtain ⟨d₂, _, hsame, htypes⟩ := flattened_of_build h hbuilt
  have hgraph : (d₂.flattenVariants c.root).typeInfos.SameNesting c.graph.typeInfos.toArena :=
    ⟨fun p _ _ => by rw [TypeInfoTable.get?_toArena, htypes],
      fun p _ _ => by rw [TypeInfoTable.get?_toArena, htypes]⟩
  rw [hgraph.nested, nested_flattenVariants, hsame.nested]

/-- The list of a variant that is walked to is flat. -/
theorem flat_of_build (h : t.build plugin = .ok c) (hbuilt : t.BuiltBy plugin P d d' c)
    (ht : t.Rooted) (he : e ∈ c.graph.ids) (hwalk : e ∈ d.walk c.root)
    (hk : (c.graph.element e).kind = .variant) {arity : Arity} {l : List TypeInfoId}
    (hget : c.graph.typeInfos.get? (c.graph.element e).typeInfo = some ⟨arity, .anyOf l⟩) :
    (d.choices (t.blueprint plugin)).Flat (c.graph.element e).typeInfo l := by
  obtain ⟨d₂, hkept, hsame, htypes⟩ := flattened_of_build h hbuilt
  have htypeInfo : (d₂.element e).typeInfo = (c.graph.element e).typeInfo := by
    rw [hkept.element e, hbuilt.typeInfo he]
  rw [← htypeInfo] at hget ⊢
  refine flat_flattenVariants
    (proper_choices (b := t.blueprint plugin) hbuilt.assembled.sound.indexed ht)
    (hbuilt.assembled.holds_choices hbuilt.held hsame) (hkept.walk c.root ▸ hwalk) ?_
    (alternatives?_eq_some_iff.2 ⟨arity, (htypes _).trans hget⟩)
  rw [← hk, hbuilt.kind he]
  exact (hkept.data e).kind

section Flattens

variable (h : a.BuiltBy plugin P d d' c) (hf : (a.blueprint plugin).Faithful P c.root d)
  {l : List TypeInfoId} (hv : d.places.find? v = some p)
  (hflat : (d.choices (a.blueprint plugin)).Flat p l)
include h hf hv hflat

/-- A flat list has everything that stands for no variant. -/
theorem BuiltBy.mem_of_unfolds (hy : a.Unfolds v y) (hnot : ∀ w, ¬a.SinglyFor y w)
    (hq : a.TypeFor plugin c.graph y q) : q ∈ l := by
  rw [h.typeFor_iff hf.resolved hf.aliases] at hq
  have hmem := hflat.complete y ((hf.unfolds_iff hv).2 hy)
  rw [place_choices hq] at hmem
  exact hmem (hf.nested_eq_none hq hnot)

/-- What a flat list has that stands for a variant is surplus. -/
theorem BuiltBy.unfolds_of_mem (hq : q ∈ l) : ∃ y, a.Unfolds v y ∧
    a.TypeFor plugin c.graph y q ∧ ∀ w, a.SinglyFor y w → a.Surplus v y w := by
  obtain ⟨y, rfl, hy, hsurplus⟩ := hflat.sound q hq
  have hyv := (hf.unfolds_iff hv).1 hy
  obtain ⟨q, hq⟩ := hf.place_of_unfolds hv hyv
  rw [place_choices hq] at hsurplus ⊢
  refine ⟨y, hyv, (h.typeFor_iff hf.resolved hf.aliases).2 hq, fun w hw => ?_⟩
  obtain ⟨r, hwr, hr⟩ := hf.nested_of_singlyFor hw hq
  exact hf.surplus_of_places hv hwr (hsurplus r hr)

/-- A flat list tells of items what `Flattens` says. -/
theorem BuiltBy.flattens (hnested : c.graph.typeInfos.toArena.nested = d.typeInfos.nested)
    (halternative : ∀ v, ∀ y ∈ (a.item v).alternatives,
      a.Single y ∧ (a.item y).kind ≠ some .variant) : a.Flattens plugin c.graph v l := by
  have hiff : ∀ {y q}, a.TypeFor plugin c.graph y q →
      ∀ r, d.typeInfos.nested q = some r ↔ ∃ w, a.SinglyFor y w ∧ d.places.find? w = some r :=
    fun hq r => hf.nested_iff ((h.typeFor_iff hf.resolved hf.aliases).1 hq)
  have hleaf : ∀ {y q}, a.TypeFor plugin c.graph y q → (∀ w, ¬a.SinglyFor y w) →
      d.typeInfos.nested q = none := fun hq =>
    hf.nested_eq_none ((h.typeFor_iff hf.resolved hf.aliases).1 hq)
  have hleaves : ∀ q, q ∈ l ∧ d.typeInfos.nested q = none ↔
      ∃ y, a.Unfolds v y ∧ (∀ w, ¬a.SinglyFor y w) ∧ a.TypeFor plugin c.graph y q := fun q => by
    constructor
    · rintro ⟨hq, hnone⟩
      obtain ⟨y, hy, hyq, _⟩ := h.unfolds_of_mem hf hv hflat hq
      refine ⟨y, hy, fun w hw => ?_, hyq⟩
      obtain ⟨r, _, hr⟩ :=
        hf.nested_of_singlyFor hw ((h.typeFor_iff hf.resolved hf.aliases).1 hyq)
      rw [hnone] at hr
      cases hr
    · rintro ⟨y, hy, hnot, hyq⟩
      exact ⟨h.mem_of_unfolds hf hv hflat hy hnot hyq, hleaf hyq hnot⟩
  have hplain : a.NestsOnce v → ∀ q ∈ l, d.typeInfos.nested q = none := fun honce q hq => by
    obtain ⟨y, hy, hyq, hsurplus⟩ := h.unfolds_of_mem hf hv hflat hq
    exact hleaf hyq fun w hw => honce.not_surplus hy hw (hsurplus w hw)
  refine ⟨fun y hy => ?_, hnested ▸ hleaves, fun q hq r hr => ?_, hnested ▸ hplain,
    fun hsingly honce q => ?_⟩
  · obtain ⟨q, hq⟩ := hf.place_of_unfolds hv hy
    simp only [h.typeFor_iff hf.resolved hf.aliases]
    exact ⟨q, hq, fun q' hq' => Option.some.inj (hq'.symm.trans hq)⟩
  · rw [hnested] at hr
    obtain ⟨y, hy, hyq, hsurplus⟩ := h.unfolds_of_mem hf hv hflat hq
    obtain ⟨w, hw, _⟩ := (hiff hyq r).1 hr
    exact ⟨y, w, hy, hw, hyq, hsurplus w hw⟩
  · have hflatAlternatives : ∀ y, y ∈ a.flatAlternatives v ↔
        a.Unfolds v y ∧ ∀ w, ¬a.SinglyFor y w := fun y =>
      hsingly.mem_flatAlternatives_iff halternative hf.resolved.wellFormed.rooted
    rw [← and_iff_left_of_imp (hplain honce q), hleaves]
    simp only [hflatAlternatives, and_assoc]

end Flattens

/-! ### All together -/

/-- **Variants are flattened.** After a compilation for a plugin that wants no aliases, the element
of a variant lists alternatives as `Flattens` says. -/
theorem compile_flattens (h : t.Produced)
    (hp : plugin.capabilities.preserveReferences = false) (hok : t.compile plugin options = .ok c) :
    ∃ a, t.compileTree plugin options = .ok (a, c) ∧ ∀ e ∈ c.graph.ids,
      (c.graph.element e).kind = .variant → ∃ arity l,
        c.graph.typeInfos.get? (c.graph.element e).typeInfo = some ⟨arity, .anyOf l⟩ ∧
        a.Flattens plugin c.graph (a.origin plugin e) l := by
  obtain ⟨a, d, d', htree, ha, hbuilt⟩ := compile_sought h.reachable hp hok
  obtain ⟨r, hr, hadmit, hbuild⟩ := compileTree_stages htree
  have hreachable : a.Reachable := (h.reachable.of_resolve hr).alike (retyped_admitAll hadmit).alike
  have halternative : ∀ v, ∀ y ∈ (a.item v).alternatives,
      a.Single y ∧ (a.item y).kind ≠ some .variant := fun v y hy =>
    ⟨h.reachable.arity_of_alternative htree hy, hreachable.kind_of_alternative hy⟩
  have hf : (a.blueprint plugin).Faithful (a.blueprint plugin).Sought c.root d :=
    ⟨hbuilt.assembled, hbuilt.held, ha.resolved, h.settled htree, hp, fun x hk =>
      not_single_of_isCollection (h.lists htree hk)⟩
  refine ⟨a, htree, fun e he hk => ?_⟩
  obtain ⟨l, hget⟩ := hbuilt.type_of_variant he hk
  have hv := hbuilt.place_eq he
  have hflat := flat_of_build hbuild hbuilt ha.resolved.wellFormed.rooted he
    (hbuilt.mem_walk_of_variant ha he hk) hk hget
  rw [hbuilt.origin_eq he]
  exact ⟨_, l, hget, hbuilt.flattens hf hv hflat (nested_of_build hbuild hbuilt) halternative⟩

/-- Numbers or texts, that or a truth value, and the first one twice. -/
def repeatedChoice : ItemTree :=
  (((ofSource "").push root
    (Item.variant (some "inner") [⟨"int", ∅, .builtin⟩, ⟨"string", ∅, .builtin⟩])).push root
    (Item.variant (some "outer") [⟨"inner", ∅, .builtin⟩, ⟨"bool", ∅, .builtin⟩])).push root
    (Item.variant (some "twice") [⟨"inner", ∅, .builtin⟩, ⟨"inner", ∅, .builtin⟩])

/-- The second variant lists what an admission looks at. The third one still has the first among
its alternatives, as that is nested in it twice. -/
theorem repeatedChoice_flattened : repeatedChoice.Produced ∧ ∃ a c,
    repeatedChoice.compileTree { name := "any", capabilities := .allElements } {} = .ok (a, c) ∧
    repeatedChoice.compile { name := "any", capabilities := .allElements } {} = .ok c ∧
    a.NestsSingly ⟨2⟩ ∧ a.NestsOnce ⟨2⟩ ∧ a.flatAlternatives ⟨2⟩ = [⟨4⟩, ⟨5⟩, ⟨7⟩] ∧
    a.Flattens { name := "any", capabilities := .allElements } c.graph ⟨2⟩ [⟨2⟩, ⟨3⟩, ⟨5⟩] ∧
    ¬a.NestsOnce ⟨3⟩ ∧ c.graph.typeInfos.toArena.nested ⟨1⟩ = some ⟨1⟩ ∧
    a.Flattens { name := "any", capabilities := .allElements } c.graph ⟨3⟩ [⟨2⟩, ⟨3⟩, ⟨1⟩] := by
  have hinner := Item.Declared.variant (some "inner")
    [⟨"int", ∅, .builtin⟩, ⟨"string", ∅, .builtin⟩]
  have houter := Item.Declared.variant (some "outer")
    [⟨"inner", ∅, .builtin⟩, ⟨"bool", ∅, .builtin⟩]
  have htwice := Item.Declared.variant (some "twice")
    [⟨"inner", ∅, .builtin⟩, ⟨"inner", ∅, .builtin⟩]
  have hproduced : repeatedChoice.Produced :=
    (((Produced.source "").push (p := root) (by decide) hinner).push (p := root) (by decide)
      houter).push (p := root) (by decide) htwice
  have hlists : (repeatedChoice.compileTree { name := "any", capabilities := .allElements }
      {}).toOption.map (fun r => ([(r.1.item ⟨1⟩).alternatives, (r.1.item ⟨2⟩).alternatives,
        r.1.flatAlternatives ⟨2⟩], [r.1.nestedVariant ⟨4⟩, r.1.nestedVariant ⟨5⟩,
        r.1.nestedVariant ⟨6⟩, r.1.nestedVariant ⟨7⟩])) =
      some ([[⟨4⟩, ⟨5⟩], [⟨6⟩, ⟨7⟩], [⟨4⟩, ⟨5⟩, ⟨7⟩]], [none, none, some ⟨1⟩, none]) := by
    decide +kernel
  have hitems : (repeatedChoice.compileTree { name := "any", capabilities := .allElements }
      {}).toOption.map (fun r => ([((r.1.item ⟨1⟩).kind, (r.1.item ⟨1⟩).arity),
        ((r.1.item ⟨6⟩).kind, (r.1.item ⟨6⟩).arity)],
        (r.1.blueprint { name := "any", capabilities := .allElements }).linked? ⟨6⟩ .target)) =
      some ([(some .variant, some .one), (some .reference, some .one)], some ⟨1⟩) := by
    decide +kernel
  have helements : (repeatedChoice.compileTree { name := "any", capabilities := .allElements }
      {}).toOption.map (fun r => (r.2.graph.size, [⟨4⟩, ⟨6⟩].map fun e =>
        ((r.2.graph.element e).kind, (r.2.graph.element e).typeInfo,
          r.1.origin { name := "any", capabilities := .allElements } e))) =
      some (7, [(.variant, ⟨4⟩, ⟨2⟩), (.variant, ⟨6⟩, ⟨3⟩)]) := by
    decide +kernel
  have htypes : (repeatedChoice.compileTree { name := "any", capabilities := .allElements }
      {}).toOption.map (fun r => ([⟨4⟩, ⟨6⟩].map r.2.graph.typeInfos.toArena.alternatives?,
        r.2.graph.typeInfos.toArena.nested ⟨1⟩)) =
      some ([some [⟨2⟩, ⟨3⟩, ⟨5⟩], some [⟨2⟩, ⟨3⟩, ⟨1⟩]], some ⟨1⟩) := by
    decide +kernel
  refine ⟨hproduced, ?_⟩
  cases hc : repeatedChoice.compileTree { name := "any", capabilities := .allElements } {} with
  | error failure =>
    rw [hc] at htypes
    cases htypes
  | ok r =>
    obtain ⟨a, c⟩ := r
    simp only [hc, Except.toOption, Option.map_some, List.map_cons, List.map_nil,
      Option.some.injEq, Prod.mk.injEq, List.cons.injEq, and_true]
      at hlists hitems helements htypes
    obtain ⟨⟨hinnerList, houterList, hflat⟩, h4, h5, h6, h7⟩ := hlists
    obtain ⟨⟨⟨hkind, harity⟩, hkind', harity'⟩, hlinked⟩ := hitems
    obtain ⟨hsize, ⟨hvariant, htype, horigin⟩, hvariant', htype', horigin'⟩ := helements
    obtain ⟨⟨hlist, hlist'⟩, hstands⟩ := htypes
    have hok := compile_of_compileTree hc
    obtain ⟨a', hc', hflattens⟩ := compile_flattens hproduced rfl hok
    obtain ⟨rfl, -⟩ := Prod.mk.inj (Except.ok.inj (hc.symm.trans hc'))
    obtain ⟨r, hr, hadmit, -⟩ := compileTree_stages hc
    have hreachable := (hproduced.reachable.of_resolve hr).alike (retyped_admitAll hadmit).alike
    have hplain : ∀ v, ∀ y ∈ (a.item v).alternatives, (a.item y).kind ≠ some .variant :=
      fun _ _ => hreachable.kind_of_alternative
    have hsingly : a.SinglyFor ⟨6⟩ ⟨1⟩ :=
      .refers (by simp [Single, harity']) ⟨hkind', (target_of_linked? hlinked).1⟩
        (.variant hkind (by simp [Single, harity]))
    have hx : ∀ z ∈ (a.item ⟨2⟩).alternatives, ∀ v, a.nestedVariant z = some v →
        z = ⟨6⟩ ∧ v = ⟨1⟩ := by
      simp [houterList, h6, h7]
    have hw : ∀ z ∈ (a.item ⟨1⟩).alternatives, a.nestedVariant z = none := by
      simp [hinnerList, h4, h5]
    have houterFlat := hflattens ⟨4⟩ (by simp [Graph.ids, hsize]) hvariant
    have htwiceFlat := hflattens ⟨6⟩ (by simp [Graph.ids, hsize]) hvariant'
    rw [htype, horigin] at houterFlat
    rw [htype', horigin'] at htwiceFlat
    obtain ⟨_, l, hget, houterFlat⟩ := houterFlat
    obtain ⟨_, l', hget', htwiceFlat⟩ := htwiceFlat
    obtain ⟨_, hget₂⟩ := TypeInfoArena.alternatives?_eq_some_iff.1 hlist
    obtain ⟨_, hget₂'⟩ := TypeInfoArena.alternatives?_eq_some_iff.1 hlist'
    rw [TypeInfoTable.get?_toArena, hget] at hget₂
    rw [TypeInfoTable.get?_toArena, hget'] at hget₂'
    cases hget₂
    cases hget₂'
    refine ⟨a, c, rfl, hok, nestsSingly_of_one hplain hx hw hsingly,
      nestsOnce_of_one hplain hx hw, hflat, houterFlat, fun honce => ?_, hstands, htwiceFlat⟩
    have hnone := htwiceFlat.plain honce ⟨1⟩ (by simp)
    rw [hstands] at hnone
    cases hnone

end ItemTree
end Schemata
