import Schemata.Proofs.Kinds
import Schemata.Proofs.References
import Schemata.Proofs.Values

/-! What the passes over elements come across.

The passes walk from the root along everything that elements own and point at. Other
elements are there for the sake of values only: the sources of these, and what belongs
to the sources in turn. All of them lead to a scalar, so no variant is among them. -/
namespace Schemata

open Search

namespace ItemTree

variable {t : ItemTree} {x y : ItemId}

/-! ### Leading to a scalar -/

theorem Regular.mem_referred (h : t.Regular) (hk : (t.item x).kind = some .reference ∨
    (t.item x).kind = some .list) (hxy : (t.item x).target? = some (.item y)) :
    t.referred x = [y] := by
  have hsuits : (t.item x).form = .declaration ∧ (t.item x).alternatives = [] := by
    rcases hk with hk | hk
    · exact ⟨((h.items x).suits _ hk).1, ((h.items x).suits _ hk).2.1⟩
    · exact ⟨((h.items x).suits _ hk).1, ((h.items x).suits _ hk).2.1⟩
  unfold referred
  rw [isBarrier_eq_false_iff.2 ⟨by simp [hsuits.1], hsuits.2⟩]
  exact itemReferences_of_references (target?_eq_some hxy)

/-- What links to something that leads to a scalar does so too, and only that does. -/
theorem Regular.leadsToScalar_link (h : t.Regular) (hk : (t.item x).kind = some .reference ∨
    (t.item x).kind = some .list) (hxy : (t.item x).target? = some (.item y)) :
    t.LeadsToScalar x ↔ t.LeadsToScalar y := by
  have hreferred := h.mem_referred hk hxy
  constructor
  · rintro ⟨z, hxz, hz⟩
    rcases Relation.ReflTransGen.cases_head hxz with rfl | ⟨y', hy', hyz⟩
    · rcases hz with hs | hn
      · rw [hs] at hk
        rcases hk with hk | hk <;> cases hk
      · obtain ⟨type, hmem⟩ := (namesFundamental_iff.1 hn).2
        rw [target?_eq_some hxy] at hmem
        cases List.mem_singleton.1 hmem
    · rw [hreferred] at hy'
      exact ⟨z, List.mem_singleton.1 hy' ▸ hyz, hz⟩
  · rintro ⟨z, hyz, hz⟩
    exact ⟨z, .head (by rw [hreferred]; exact List.mem_singleton.2 rfl) hyz, hz⟩

/-- So it is all along a chain of references. -/
theorem Regular.leadsToScalar_chain (h : t.Regular)
    (hxy : Relation.ReflTransGen (Follows t.referenceStep) x y) :
    t.LeadsToScalar x ↔ t.LeadsToScalar y := by
  induction hxy with
  | refl => exact Iff.rfl
  | tail _ hstep ih =>
    have hrefers := h.refers_of_follows hstep
    exact ih.trans (h.leadsToScalar_link (.inl hrefers.1) hrefers.2)

theorem Regular.leadsToScalar_of_fundamental (h : t.Regular)
    (hk : (t.item x).kind = some .fundamental) : t.LeadsToScalar x := by
  obtain ⟨hform, halternatives, type, hreferences⟩ := (h.items x).suits _ hk
  refine ⟨x, .refl, .inr (namesFundamental_iff.2 ⟨⟨by simp [hform], halternatives⟩, type, ?_⟩)⟩
  rw [hreferences]
  exact List.mem_singleton.2 rfl

theorem Regular.leadsToScalar_of_source (h : t.Regular) (hx : x ∈ t.simpleSources y) :
    t.LeadsToScalar x := by
  obtain ⟨hreference, hleads⟩ := List.mem_filter.1 hx
  obtain ⟨z, hxz, hz⟩ :=
    (h.leadsToFundamental_iff (h.references y x (mem_itemReferences.1 hreference)).1).1 hleads
  rcases hz with hz | hz
  · unfold isScalar at hz
    rw [Bool.or_eq_true, decide_eq_true_eq, decide_eq_true_eq] at hz
    rcases hz with hs | hf
    · exact ⟨z, hxz, .inl hs⟩
    · obtain ⟨w, hzw, hw⟩ := h.leadsToScalar_of_fundamental hf
      exact ⟨w, hxz.trans hzw, hw⟩
  · exact ⟨z, hxz, .inr hz⟩

/-- A variant leads nowhere. -/
theorem Regular.not_leadsToScalar (h : t.Regular) (hk : (t.item x).kind = some .variant) :
    ¬t.LeadsToScalar x := by
  rintro ⟨y, hxy, hy⟩
  have halternatives := ((h.items x).suits _ hk).2
  have hnone : ∀ y, y ∉ t.referred x := fun y hy => halternatives (mem_referred_iff.1 hy).1.2
  rcases Relation.ReflTransGen.cases_head hxy with rfl | ⟨z, hz, _⟩
  · rcases hy with hs | hn
    · rw [hk] at hs
      cases hs
    · exact halternatives (namesFundamental_iff.1 hn).1.2
  · exact hnone z hz

end ItemTree

namespace Blueprint

open Draft ItemTree

variable {b : Blueprint} {P : ItemId → Prop} {root id : ElementId} {d : Draft} {x y : ItemId}

/-! ### Joined items -/

/-- An element of `x` owns that of `y` or points at it. -/
def Joins (b : Blueprint) (x y : ItemId) : Prop :=
  y ∈ b.owned x ∨ ∃ l z, b.linked? x l = some z ∧ b.standIn z = y

/-- What elements own and point at leads from the root to the item. -/
def Joined (b : Blueprint) (x : ItemId) : Prop := Relation.ReflTransGen b.Joins ItemTree.root x

/-- The elements of joined items are met on the walk. -/
theorem Assembled.mem_walk_of_joined (h : b.Assembled P root d) (hx : b.Joined x) :
    ∃ id ∈ d.walk root, d.idOf? x = some id := by
  have hi := h.sound.indexed
  induction hx with
  | refl => exact ⟨root, h.mem_walk_iff_path.2 .refl, h.root⟩
  | @tail x y _ hxy ih =>
    obtain ⟨id, hid, hidx⟩ := ih
    have hlt := hi.lt_of_idOf? hidx
    obtain rfl := hi.itemOf_of_idOf? hidx
    have hpath := h.mem_walk_iff_path.1 hid
    rcases hxy with hy | ⟨l, z, hl, rfl⟩
    · obtain ⟨info, _, hs⟩ := (h.described hlt).shaped
      obtain ⟨id', hid', _⟩ := hs.owned y hy
      exact ⟨id', h.mem_walk_iff_path.2 (hpath.tail (h.mem_edges hlt hy hid')), hid'⟩
    · obtain ⟨target, hlink, htarget⟩ := h.linkAt_of_linked? hlt hl
      exact ⟨target, h.mem_walk_iff_path.2 (hpath.tail (Element.mem_edges_of_linkAt hlink)),
        htarget⟩

/-- What building asks for: joined items, aliases for which only those stand, and what is there for
the sake of values. -/
inductive Sought (b : Blueprint) (x : ItemId) : Prop
  | joined (h : b.Joined x)
  | stoodFor (ha : b.isAlias x) (h : b.Joined (b.standIn x))
  | scalar (h : b.tree.LeadsToScalar x)
  | extension (h : (b.tree.item x).isExtension)

theorem not_extension_of_kind (h : b.tree.Regular) {k : Kind}
    (hk : (b.tree.item x).kind = some k) (hne : k ≠ .extension) :
    (b.tree.item x).isExtension = false := by
  have hsuits := (h.items x).suits k hk
  cases k with
  | extension => exact absurd rfl hne
  | compound | simple => exact not_extension_of_form hsuits nofun
  | _ => exact not_extension_of_form hsuits.1 nofun

/-- Only objects and variants own anything. -/
theorem kind_of_owned (hy : y ∈ b.owned x) : (b.tree.item x).kind = some .compound ∨
    (b.tree.item x).kind = some .simple ∨ (b.tree.item x).kind = some .variant := by
  unfold owned builtChildren ownAlternatives at hy
  cases hk : (b.tree.item x).kind with
  | none =>
    rw [hk] at hy
    cases hy
  | some k =>
    rw [hk] at hy
    cases k with
    | compound => exact .inl rfl
    | simple => exact .inr (.inl rfl)
    | variant => exact .inr (.inr rfl)
    | _ => cases hy

/-- Objects and variants link to what they list, references and lists to their targets. -/
theorem kind_of_linked {l : Link} (hy : b.linked? x l = some y) :
    (b.tree.item x).kind = some .compound ∨ (b.tree.item x).kind = some .variant ∨
      ((b.tree.item x).kind = some .reference ∨ (b.tree.item x).kind = some .list) ∧
        (b.tree.item x).target? = some (.item y) := by
  cases l with
  | target =>
    obtain ⟨htarget, hk⟩ := target_of_linked? hy
    exact .inr (.inr ⟨hk, htarget⟩)
  | base i | variation i =>
    unfold linked? at hy
    split at hy <;> simp_all

theorem Sought.joined_of_variant (h : b.Sought x) (ht : b.tree.Regular)
    (hk : (b.tree.item x).kind = some .variant) : b.Joined x := by
  cases h with
  | joined h => exact h
  | stoodFor ha =>
    rw [(isAlias_iff.1 ha).1] at hk
    cases hk
  | scalar h => exact absurd h (ht.not_leadsToScalar hk)
  | extension h => exact absurd h (by simp [not_extension_of_kind ht hk nofun])

theorem Sought.joined_of_compound (h : b.Sought x) (ht : b.tree.Regular) (hs : b.tree.Separated)
    (hk : (b.tree.item x).kind = some .compound) : b.Joined x := by
  cases h with
  | joined h => exact h
  | stoodFor ha =>
    rw [(isAlias_iff.1 ha).1] at hk
    cases hk
  | scalar h => exact absurd h (hs.not_leadsToScalar hk)
  | extension h => exact absurd h (by simp [not_extension_of_kind ht hk nofun])

/-- All children of a simple object are members, unless they are extensions. -/
theorem part_of_simple {part : Part} (hk : (b.tree.item x).kind = some .simple)
    (h : b.part? x y = some part) (hext : (b.tree.item y).isExtension = false) :
    part = .member := by
  unfold part? at h
  split_ifs at h with _ _ hext' hdefinition
  · exact absurd hext' (by simp [hext])
  · rw [hk] at hdefinition
    cases hdefinition.1
  · exact (Option.some.inj h).symm

/-- What a simple object owns leads to a scalar, unless it is an extension. -/
theorem sought_of_simple {t : ItemTree} {plugin : Plugin} (h : t.Admitted)
    (hk : (t.item x).kind = some .simple) (hy : y ∈ (t.blueprint plugin).owned x) :
    (t.blueprint plugin).Sought y := by
  have hregular := h.resolved.wellFormed.regular
  rcases List.mem_append.1 hy with hy | hy
  · obtain ⟨hbuilt, hsome⟩ := List.mem_filter.1 hy
    obtain ⟨part, hpart⟩ := Option.isSome_iff_exists.1 hsome
    cases hext : (t.item y).isExtension with
    | true => exact .extension hext
    | false =>
      obtain rfl := part_of_simple hk hpart hext
      have hlt := (h.resolved.wellFormed.rooted.listed x y
        (List.mem_append_right _ (mem_builtChildren hbuilt))).1
      obtain ⟨last, _, hends, hlast, _⟩ := h.ends_of_attribute hlt hext
        (h.attribute_of_member hk (List.mem_filter.2 ⟨hbuilt, decide_eq_true hpart⟩))
      have hchain := Relation.ReflTransGen.mono (fun _ _ => follows_of_refers) _ _
        (hregular.refers_of_ends hends)
      exact .scalar ((hregular.leadsToScalar_chain hchain).2
        (hregular.leadsToScalar_of_fundamental hlast))
  · unfold ownAlternatives at hy
    rw [show ((t.blueprint plugin).tree.item x).kind = _ from hk] at hy
    cases hy

/-- What a reference or a list that is sought refers to is sought. -/
theorem Sought.target {t : ItemTree} {plugin : Plugin} {l : Link} (h : t.Resolved)
    (hp : plugin.capabilities.preserveReferences = false) (hx : (t.blueprint plugin).Sought x)
    (hk : (t.item x).kind = some .reference ∨ (t.item x).kind = some .list)
    (htarget : (t.item x).target? = some (.item y))
    (hl : (t.blueprint plugin).linked? x l = some y) :
    (t.blueprint plugin).Sought ((t.blueprint plugin).standIn y) := by
  have hregular := h.wellFormed.regular
  cases hx with
  | joined hx => exact .joined (hx.tail (.inr ⟨l, y, hl, rfl⟩))
  | stoodFor halias hx =>
    have hstep := aliasStep_of_follows h halias
      (follows_of_refers ⟨(isAlias_iff.1 halias).1, htarget⟩)
    rw [standIn_of_aliasStep h hp hstep] at hx
    exact .joined hx
  | scalar hx =>
    exact .scalar ((hregular.leadsToScalar_chain
      (follows_standIn (b := t.blueprint plugin) h y).1).1
      ((hregular.leadsToScalar_link hk htarget).1 hx))
  | extension hx => exact absurd hx (by simp [(of_linked hregular hl).1])

/-- Building what is sought asks for no more. -/
theorem closed_sought {t : ItemTree} {plugin : Plugin} (h : t.Admitted) (hs : t.Separated)
    (hp : plugin.capabilities.preserveReferences = false) :
    (t.blueprint plugin).Closed (t.blueprint plugin).Sought where
  root := .joined .refl
  owned x hx y hy := by
    rcases kind_of_owned hy with hk | hk | hk
    · exact .joined ((hx.joined_of_compound h.resolved.wellFormed.regular hs hk).tail (.inl hy))
    · exact sought_of_simple h hk hy
    · exact .joined ((hx.joined_of_variant h.resolved.wellFormed.regular hk).tail (.inl hy))
  bases x hx hk y hy := by
    obtain ⟨i, hi⟩ := List.mem_iff_getElem?.1 hy
    have hlinked : (t.blueprint plugin).linked? x (.base i) = some y := by
      unfold linked?
      rw [hk]
      exact hi
    have hjoined := (hx.joined_of_compound h.resolved.wellFormed.regular hs hk).tail
      (.inr ⟨_, y, hlinked, rfl⟩)
    cases halias : (t.blueprint plugin).isAlias y with
    | true => exact .stoodFor halias hjoined
    | false =>
      rw [standIn_eq_of_not_isAlias (.inl halias)] at hjoined
      exact .joined hjoined
  linked x hx l y hl := by
    have hregular := h.resolved.wellFormed.regular
    rcases kind_of_linked hl with hk | hk | ⟨hk, htarget⟩
    · exact .joined ((hx.joined_of_compound hregular hs hk).tail (.inr ⟨l, y, hl, rfl⟩))
    · exact .joined ((hx.joined_of_variant hregular hk).tail (.inr ⟨l, y, hl, rfl⟩))
    · exact hx.target h.resolved hp hk htarget hl
  source x _ y hy := .scalar (h.resolved.wellFormed.regular.leadsToScalar_of_source
    (List.mem_of_head? (of_valueSource hy).2.2))

end Blueprint

namespace ItemTree

open Draft Blueprint

variable {t a : ItemTree} {plugin : Plugin} {options : Options} {d d' : Draft} {c : Compiled}
  {e : ElementId}

/-- The passes come across every variant. -/
theorem BuiltBy.mem_walk_of_variant (h : a.BuiltBy plugin (a.blueprint plugin).Sought d d' c)
    (ha : a.Admitted) (he : e ∈ c.graph.ids) (hk : (c.graph.element e).kind = .variant) :
    e ∈ d.walk c.root := by
  have hid := h.assembled.sound.indexed.element e (h.mem_ids.1 he)
  have hkind : (a.item (d.itemOf e)).kind = some .variant :=
    (h.kind_item he).trans (congrArg some hk)
  have hjoined := (h.assembled.sound.asked _ e hid).joined_of_variant
    ha.resolved.wellFormed.regular hkind
  obtain ⟨e', he', hid'⟩ := h.assembled.mem_walk_of_joined hjoined
  obtain rfl := Option.some.inj (hid.symm.trans hid')
  exact he'

/-- Unless aliases are to stay, a compilation asks only for what is sought. -/
theorem compile_sought (h : t.Reachable) (hp : plugin.capabilities.preserveReferences = false)
    (hok : t.compile plugin options = .ok c) :
    ∃ a d d', t.compileTree plugin options = .ok (a, c) ∧ a.Admitted ∧
      a.BuiltBy plugin (a.blueprint plugin).Sought d d' c := by
  obtain ⟨a, _, _, htree, ha, _⟩ := compile_built h hok
  obtain ⟨r, hr, hadmit, hbuild⟩ := compileTree_stages htree
  have hseparated : a.Separated :=
    ((h.of_resolve hr).alike (retyped_admitAll hadmit).alike).separated
  obtain ⟨d, d', hbuilt⟩ := build_ok (closed_sought ha hseparated hp) hbuild
  exact ⟨a, d, d', htree, ha, hbuilt⟩

end ItemTree
end Schemata
