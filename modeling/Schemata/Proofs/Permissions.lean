import Schemata.Proofs.Coverage
import Schemata.Proofs.Readmission
import Schemata.Proofs.Tree.Leading
import Schemata.Proofs.Types

/-! A plugin gets nothing but what it has asked for.

Whatever becomes an element has been admitted as an item: the plugin accepts its
kind, unless it is an alternative, it knows the extension by its name, and
extensions of one name stand next to each other only if the first rule for the
name allows it. An item that gets ignored in the middle of an admission has no
element, and what is not ignored in the end never was, so that the checks which
passed early still tell about what is left. -/
namespace Schemata

open Search

/-- What the plugin has declared allows for an element and for the extensions that it has. -/
structure Graph.Permits (g : Graph) (t : ItemTree) (plugin : Plugin) (id : ElementId) : Prop where
  kind : t.isAlternative (t.origin plugin id) = false →
    plugin.capabilities.accepts (g.element id).kind
  extension : (g.element id).kind = .extension →
    (t.item (t.origin plugin id)).form = .extension ∧
      ∃ rule ∈ plugin.extensions, (t.item (t.origin plugin id)).name = some rule.name
  repeats : (g.element id).extensions.Pairwise fun x y =>
    (t.item (t.origin plugin x)).name = (t.item (t.origin plugin y)).name →
      ∃ name rule, (t.item (t.origin plugin x)).name = some name ∧
        plugin.extension? name = some rule ∧ rule.allowDuplicates

/-! ### Extensions next to each other -/

/-- What the check of a scope counts as an extension. -/
structure Item.Extends (i : Item) : Prop where
  kept : i.isIgnored = false
  declared : i.isSynthetic = false
  extension : i.isExtension

/-- Two extensions next to each other have different names, one that is unknown, or one that may be
repeated. -/
def Plugin.Tolerates (plugin : Plugin) (i j : Item) : Prop :=
  i.Extends → j.Extends → ∀ name rule, i.name = some name → j.name = some name →
    plugin.extension? name = some rule → rule.allowDuplicates

theorem Item.Declared.isSome_name {i : Item} (h : i.Declared) :
    i.form = .extension → i.name.isSome := by
  induction h with
  | extension name arguments => exact fun _ => rfl
  | object name => exact nofun
  | declaration name target => exact nofun
  | variant name alternatives => exact nofun
  | withBase _ _ ih | withArity _ _ ih | withMetadata _ _ _ ih | withRole _ _ ih | external _ ih
  | placedAt _ _ ih => exact ih

/-- What gets an element is not ignored. -/
theorem Blueprint.Wanted.not_ignored {b : Blueprint} {x : ItemId} (h : b.Wanted x)
    (ht : b.tree.Regular) : (b.tree.item x).isIgnored = false := by
  refine Bool.eq_false_iff.2 fun hi => absurd ((ht.items x).ignored hi) fun hext => ?_
  exact absurd hi (by simp [(Blueprint.omits_eq_false_iff.1 h.kept).1 hext])

namespace ItemTree

variable {t t' a r : ItemTree} {plugin : Plugin} {options : Options} {P : ItemId → Prop}
  {c : Compiled} {d d' : Draft} {id : ElementId} {x y : ItemId} {taken taken' : Taken} {i : Item}
  {name : String} {rule : ExtensionRule}

/-- A name is no extension's, so nothing changes for these. -/
theorem extensions_takeName (h : takeName taken i = .ok taken') :
    taken'.extensions = taken.extensions := by
  unfold takeName at h
  split at h
  · cases h
    rfl
  split at h
  · cases h
  · cases h
    rfl

/-- Whatever is taken stays taken, and taking an extension that is known takes its name, which is
taken before only if it may be repeated. -/
theorem extensions_takeExtension (h : takeExtension plugin taken i = .ok taken') :
    taken.extensions ⊆ taken'.extensions ∧ ∀ name rule, i.name = some name →
      plugin.extension? name = some rule → name ∈ taken'.extensions ∧
        (name ∈ taken.extensions → rule.allowDuplicates) := by
  unfold takeExtension at h
  split at h
  · next hnone =>
    cases h
    exact ⟨fun _ hn => hn, fun name rule hname => by rw [hnone] at hname; cases hname⟩
  next name hname =>
  split at h
  · next hunknown =>
    cases h
    refine ⟨fun _ hn => hn, fun n rule hn hrule => ?_⟩
    obtain rfl := Option.some.inj (hname.symm.trans hn)
    rw [hunknown] at hrule
    cases hrule
  next rule hrule =>
  -- one name and one rule are left
  have hall : ∀ n rule', i.name = some n → plugin.extension? n = some rule' →
      n = name ∧ rule' = rule := fun n rule' hn hrule' => by
    obtain rfl := Option.some.inj (hname.symm.trans hn)
    exact ⟨rfl, Option.some.inj (hrule'.symm.trans hrule)⟩
  split at h
  · next hmem =>
    split at h
    · next hallowed =>
      cases h
      refine ⟨fun _ hn => hn, fun n rule' hn hrule' => ?_⟩
      obtain ⟨rfl, rfl⟩ := hall n rule' hn hrule'
      exact ⟨hmem, fun _ => hallowed⟩
    · cases h
  · next hnew =>
    cases h
    refine ⟨fun n hn => List.mem_cons_of_mem name hn, fun n rule' hn hrule' => ?_⟩
    obtain ⟨rfl, -⟩ := hall n rule' hn hrule'
    exact ⟨List.mem_cons_self, fun hmem => absurd hmem hnew⟩

/-- What is an extension is taken as one. -/
theorem extensions_take (h : take plugin taken i = .ok taken') :
    taken.extensions ⊆ taken'.extensions ∧ (i.Extends → ∀ name rule, i.name = some name →
      plugin.extension? name = some rule → name ∈ taken'.extensions ∧
        (name ∈ taken.extensions → rule.allowDuplicates)) := by
  unfold take at h
  split at h
  · next hskip =>
    cases h
    refine ⟨fun _ hn => hn, fun hi => ?_⟩
    rw [hi.kept, hi.declared] at hskip
    cases hskip
  split at h
  · obtain ⟨hsub, htaken⟩ := extensions_takeExtension h
    exact ⟨hsub, fun _ => htaken⟩
  · next hext =>
    exact ⟨fun _ hn => extensions_takeName h ▸ hn, fun hi => absurd hi.extension hext⟩

/-- The plugin tolerates all that stands in a scope which has passed its check. -/
theorem tolerates_of_checkNames (h : t.checkNames plugin x = .ok ()) :
    (t.item x).children.Pairwise fun c c' => plugin.Tolerates (t.item c) (t.item c') := by
  obtain ⟨taken, hfold, _⟩ := bind_eq_ok h
  have hall := foldlM_ok (fun done taken => done.Pairwise plugin.Tolerates ∧
      ∀ i ∈ done, i.Extends → ∀ name rule, i.name = some name →
        plugin.extension? name = some rule → name ∈ taken.extensions) hfold
    ⟨.nil, by simp⟩ fun done i rest taken taken' _ ⟨hpairs, htaken⟩ hstep => ?_
  · exact List.pairwise_map.1 hall.1
  obtain ⟨hsubset, hi⟩ := extensions_take hstep
  refine ⟨List.pairwise_append.2 ⟨hpairs, List.pairwise_singleton _ _, fun j hj i' hi' => ?_⟩,
    fun j hj hext name rule hname hrule => ?_⟩
  · obtain rfl := List.mem_singleton.1 hi'
    exact fun hj' hext name rule hname hname' hrule =>
      (hi hext name rule hname' hrule).2 (htaken j hj hj' name rule hname hrule)
  · rcases List.mem_append.1 hj with hj | hj
    · exact hsubset (htaken j hj hext name rule hname hrule)
    · obtain rfl := List.mem_singleton.1 hj
      exact (hi hext name rule hname hrule).1

/-! ### Admitted items -/

/-- What the plugin has to say about an item and the extensions under it. -/
structure Welcome (plugin : Plugin) (t : ItemTree) (x : ItemId) : Prop where
  kind : t.checkKind plugin x = .ok ()
  known : (t.item x).isExtension → (plugin.extension? ((t.item x).name.getD "")).isSome
  repeats : (t.item x).children.Pairwise fun c c' => plugin.Tolerates (t.item c) (t.item c')

/-- Of two extensions that are left, none was ignored before. -/
theorem Retyped.tolerates (h : t.Retyped t') (ht : plugin.Tolerates (t.item x) (t.item y)) :
    plugin.Tolerates (t'.item x) (t'.item y) := by
  have hextends : ∀ z, (t'.item z).Extends → (t.item z).Extends := fun z hz =>
    ⟨h.not_ignored hz.kept, (h.field Item.isSynthetic (fun _ _ _ => rfl) z).symm.trans hz.declared,
      (h.field Item.isExtension (fun _ _ _ => rfl) z).symm.trans hz.extension⟩
  intro hx hy name rule hname hname' hrule
  rw [h.field Item.name fun _ _ _ => rfl] at hname hname'
  exact ht (hextends x hx) (hextends y hy) name rule hname hname' hrule

theorem Retyped.welcome (h : t.Retyped t') (hw : Welcome plugin t x) : Welcome plugin t' x where
  kind := by
    rw [h.alike.checkKind]
    exact hw.kind
  known := by
    rw [h.field Item.isExtension fun _ _ _ => rfl, h.field Item.name fun _ _ _ => rfl]
    exact hw.known
  repeats := by
    rw [h.field Item.children fun _ _ _ => rfl]
    exact hw.repeats.imp fun ht => h.tolerates ht

/-- Everything that is not ignored when a tree is admitted is welcome. -/
theorem welcome_of_admitAll (ht : r.WellFormed) (h : r.admitAll plugin options = .ok a)
    (hx : x ∈ r.walk) (hn : (a.item x).isIgnored = false) : Welcome plugin a x := by
  refine (admitAll_passes (J := fun _ => True) (Q := Welcome plugin) trivial
    (fun t₁ t₂ id _ _ hstep => ⟨trivial, fun _ => (retyped_admitItem hstep).welcome⟩)
    (fun t₁ t₂ t₃ id hid hr _ hc hi => ?_) h).2.2 x hx hn
  have h₁ := retyped_admitEntries hc.entries
  have h₂ := retyped_admitExtension hc.extension
  have hlt : id.index < t₂.size := by
    rw [h₁.size, hr.size]
    exact ht.rooted.mem_walk_iff.1 hid
  refine h₂.welcome (h₁.welcome ⟨hc.kind, fun hext => ?_, tolerates_of_checkNames hc.names⟩)
  rw [← h₁.field Item.isExtension fun _ _ _ => rfl] at hext
  rw [← h₁.field Item.name fun _ _ _ => rfl]
  exact known_of_admitExtension hc.extension hlt hi hext

theorem Welcome.accepts (h : Welcome plugin t x) {k : Kind} (hk : (t.item x).kind = some k)
    (hx : t.isAlternative x = false) : plugin.capabilities.accepts k := by
  have hcheck := h.kind
  unfold checkKind at hcheck
  rw [hk] at hcheck
  dsimp only at hcheck
  split at hcheck
  · next haccepts => simpa [hx] using haccepts
  · cases hcheck

/-! ### Extensions have names -/

/-- Every extension of the tree has a name. -/
def ExtensionsNamed (t : ItemTree) : Prop :=
  ∀ x, (t.item x).form = .extension → (t.item x).name.isSome

/-- What is there already stays named, and what is new is no extension. -/
theorem ExtensionsNamed.grown (h : t.ExtensionsNamed) (hg : t.Grown t')
    (hnew : ∀ x, t.size ≤ x.index → x.index < t'.size → (t'.item x).form = .declaration) :
    t'.ExtensionsNamed := by
  intro x hform
  by_cases hx : x.index < t.size
  · rw [hg.form x hx] at hform
    rw [hg.name x hx]
    exact h x hform
  · by_cases hx' : x.index < t'.size
    · rw [hnew x (Nat.le_of_not_lt hx) hx'] at hform
      cases hform
    · rw [item_of_size_le (Nat.le_of_not_lt hx')] at hform
      cases hform

/-- What is new while an item is bound are alternatives, as no item gets more children. -/
theorem Binding.form_new {t₀ : ItemTree} {id : ItemId} (h : Binding t₀ id t) (h₀ : t₀.WellFormed)
    (hle : t₀.size ≤ x.index) (hlt : x.index < t.size) : (t.item x).form = .declaration := by
  have hne : x ≠ root := by
    rintro rfl
    exact absurd h₀.rooted.size (Nat.not_lt.2 hle)
  obtain ⟨p, _, _, hlisted⟩ := h.rooted.parent x hlt hne
  rcases List.mem_append.1 hlisted with halternative | hchild
  · exact (h.regular.alternatives p x halternative).2
  · rw [h.children] at hchild
    exact absurd (h₀.rooted.listed p x (List.mem_append_right _ hchild)).1 (Nat.not_lt.2 hle)

theorem invariant_extensionsNamed : Invariant ExtensionsNamed where
  source source x hform := by
    by_cases hx : x.index < (ofSource source).size
    · obtain ⟨k⟩ := x
      obtain rfl : k = 0 := Nat.lt_one_iff.1 hx
      cases hform
    · rw [item_of_size_le (Nat.le_of_not_lt hx)] at hform
      cases hform
  push {t p i} ht hp hi h x hform := by
    by_cases hx : x = t.nextId
    · subst hx
      rw [item_push_nextId hp] at hform ⊢
      exact hi.isSome_name hform
    · rw [item_push_old hp hx] at hform ⊢
      exact h x hform
  binding ht _ hbinding h := h.grown hbinding.grown fun _ => hbinding.form_new ht
  classifies ht hb hid hc h := h.grown (hc.refined ht hb hid).grown fun _ => hc.form_new hid
  alike ha h x hform := by
    rw [ha.field Item.form fun _ => rfl] at hform
    rw [ha.field Item.name fun _ => rfl]
    exact h x hform

/-! ### Elements -/

/-- What is built as an extension counts as one for the check of the scope. -/
theorem extends_of_part (ht : t.WellFormed)
    (hx : x ∈ (t.blueprint plugin).parts y .extension) : (t.item x).Extends := by
  obtain ⟨hbuilt, hpart⟩ := List.mem_filter.1 hx
  have hpart := of_decide_eq_true hpart
  have hw : (t.blueprint plugin).Wanted x := Blueprint.wanted_child (b := t.blueprint plugin) ht
    (Blueprint.mem_builtChildren hbuilt) (by rw [hpart]; rfl)
  refine ⟨hw.not_ignored ht.regular, (Blueprint.omits_eq_false_iff.1 hw.kept).2.1, ?_⟩
  unfold Blueprint.part? at hpart
  split at hpart
  · cases hpart
  · split at hpart
    · cases hpart
    · split at hpart
      · next hext => exact hext
      · split at hpart <;> cases hpart

/-- An element is permitted if all items that are not ignored are welcome. -/
theorem BuiltBy.permits (h : a.BuiltBy plugin (a.blueprint plugin).Wanted d d' c) (ha : a.Admitted)
    (hnamed : a.ExtensionsNamed)
    (hwelcome : ∀ x, x.index < a.size → (a.item x).isIgnored = false → Welcome plugin a x)
    (hid : id ∈ c.graph.ids) : c.graph.Permits a plugin id := by
  have hw := ha.resolved.wellFormed
  have hi := h.assembled.sound.indexed
  have hall : ∀ e ∈ c.graph.ids, Welcome plugin a (d.itemOf e) := fun e he =>
    have hwanted := h.assembled.sound.placed _ _ (hi.place e (h.mem_ids.1 he))
    hwelcome _ hwanted.lt (hwanted.not_ignored hw.regular)
  have hknown : ∀ e ∈ c.graph.ids, (a.item (d.itemOf e)).form = .extension → ∃ name rule,
      (a.item (d.itemOf e)).name = some name ∧ plugin.extension? name = some rule :=
    fun e he hform => by
      obtain ⟨name, hname⟩ := Option.isSome_iff_exists.1 (hnamed _ hform)
      obtain ⟨rule, hrule⟩ :=
        Option.isSome_iff_exists.1 ((hall e he).known (decide_eq_true hform))
      rw [hname] at hrule
      exact ⟨name, rule, hname, hrule⟩
  refine ⟨fun halternative => ?_, fun hk => ?_, ?_⟩
  · rw [h.origin_eq hid] at halternative
    exact (hall id hid).accepts (h.kind_item hid) halternative
  · rw [h.origin_eq hid]
    have hform : (a.item (d.itemOf id)).form = .extension :=
      (hw.regular.items (d.itemOf id)).suits .extension
        ((h.kind_item hid).trans (congrArg some hk))
    obtain ⟨name, rule, hname, hrule⟩ := hknown id hid hform
    have heq : rule.name = name := by simpa using List.find?_some hrule
    exact ⟨hform, rule, List.mem_of_find?_eq_some hrule, heq ▸ hname⟩
  · have helements := h.elementsOf_extensions hid
    have hpairs :=
      (hall id hid).repeats.sublist ((a.blueprint plugin).parts_sublist _ .extension)
    rw [← helements.map_itemOf hi, List.pairwise_map] at hpairs
    refine hpairs.imp_of_mem fun {x y} hx hy htolerates hsame => ?_
    obtain ⟨cx, hcx, hidx⟩ := exists_of_mem_right helements hx
    obtain ⟨cy, hcy, hidy⟩ := exists_of_mem_right helements hy
    obtain ⟨hmemx, rfl, _⟩ := h.element_of_idOf? hidx
    obtain ⟨hmemy, rfl, _⟩ := h.element_of_idOf? hidy
    rw [h.origin_eq hmemx, h.origin_eq hmemy] at hsame
    rw [h.origin_eq hmemx]
    have hextends := extends_of_part hw hcx
    obtain ⟨name, rule, hname, hrule⟩ := hknown x hmemx (of_decide_eq_true hextends.extension)
    exact ⟨name, rule, hname, hrule,
      htolerates hextends (extends_of_part hw hcy) name rule hname (hsame ▸ hname) hrule⟩

/-- **Nothing undeclared.** After a compilation every element that is built from no alternative is
of a kind that the plugin accepts, every extension is one that the plugin knows, and extensions of
one name stand next to each other only if the first rule of the plugin for that name allows it. -/
theorem compile_permits (h : t.Reachable) (hok : t.compile plugin options = .ok c) :
    ∃ a, t.compileTree plugin options = .ok (a, c) ∧
      ∀ id ∈ c.graph.ids, c.graph.Permits a plugin id := by
  obtain ⟨a, d, d', hc, ha, _, hbuilt⟩ := compile_built h hok
  obtain ⟨r, hr, hadmit, _⟩ := compileTree_stages hc
  have hretyped := retyped_admitAll hadmit
  have hw := (resolve_ok h.wellFormed hr).2.wellFormed
  have hnamed : a.ExtensionsNamed :=
    invariant_extensionsNamed.of_reachable (.alike (h.of_resolve hr) hretyped.alike)
  refine ⟨a, hc, fun id hid => hbuilt.permits ha hnamed (fun x hx hn => ?_) hid⟩
  exact welcome_of_admitAll hw hadmit (hw.rooted.mem_walk_iff.2 (hretyped.size ▸ hx)) hn

/-- A plugin for variants and notes, of which the first rule for notes allows any number. -/
def noteKeeper : Plugin where
  name := "any"
  capabilities := { variant := true }
  extensions := [⟨"note", true⟩, ⟨"note", false⟩]

/-- Two notes and an extension that nobody knows next to a variant. -/
def notedChoice : ItemTree :=
  ((((ofSource "").push root (Item.extension "note" [])).push root
    (Item.extension "other" [])).push root (Item.extension "note" [])).push root
    (Item.variant (some "choice") [⟨"int", ∅, .builtin⟩, ⟨"string", ∅, .builtin⟩])

/-- Compiled leniently, the root has both notes and nothing else for extensions. -/
theorem notedChoice_permitted : notedChoice.Reachable ∧ ∃ a c,
    notedChoice.compileTree noteKeeper { filterExtensions := true } = .ok (a, c) ∧
    (c.graph.element c.root).extensions = [⟨1⟩, ⟨2⟩] ∧
    ∀ id ∈ c.graph.ids, c.graph.Permits a noteKeeper id := by
  have hnote := Item.Declared.extension "note" []
  have hother := Item.Declared.extension "other" []
  have hchoice := Item.Declared.variant (some "choice")
    [⟨"int", ∅, .builtin⟩, ⟨"string", ∅, .builtin⟩]
  have hreachable : notedChoice.Reachable :=
    ((((Reachable.source "").push (p := root) (by decide) hnote).push (p := root) (by decide)
      hother).push (p := root) (by decide) hnote).push (p := root) (by decide) hchoice
  have hvalues : (notedChoice.compileTree noteKeeper { filterExtensions := true }).toOption.map
      (fun r => (r.2.graph.element r.2.root).extensions) = some [⟨1⟩, ⟨2⟩] := by decide +kernel
  obtain ⟨⟨a, c⟩, hc, hextensions⟩ := Option.map_eq_some_iff.1 hvalues
  have hc := eq_ok_of_toOption hc
  obtain ⟨a', hc', hall⟩ := compile_permits hreachable (compile_of_compileTree hc)
  rw [hc] at hc'
  cases hc'
  exact ⟨hreachable, a, c, hc, hextensions, hall⟩

end ItemTree
end Schemata
