import Schemata.Proofs.Tree.Constraints
import Schemata.Proofs.Tree.Typing

/-! What a plugin requires.

The attributes that a plugin requires of an item come after those of the language in its
schema, so they stay required, whatever they replace. But those of its arity come last.
They are all optional, so what replaces a required attribute of its name has to be there
only if it has a default. -/
namespace Schemata

/-! ### One item -/

/-- What the schema knows is there in the end if it was there before, or has a default. -/
theorem Item.Admission.contains_iff {i known typed i' : Item} {a : Attribute}
    (h : Admission i known typed i')
    (hnames : ∀ a ∈ i.schema.values, i.schema.find? a.name = some a)
    (ha : i.schema.find? a.name = some a) :
    i'.metadata.contains a.name ↔ i.metadata.contains a.name ∨ a.defaultValue.isSome := by
  constructor
  · intro hcontains
    obtain ⟨entry, hentry⟩ := Option.isSome_iff_exists.1 hcontains
    rcases h.entry_cases hnames hentry with htyped | ⟨_, b, hb, hdefault⟩
    · refine .inl (Option.isSome_iff_ne_none.2 fun hnone => ?_)
      rw [(h.find?_typed ha).1 hnone] at htyped
      cases htyped
    · obtain rfl := Option.some.inj (ha.symm.trans hb)
      exact .inr (by rw [hdefault]; rfl)
  · rintro (hcontains | hdefault)
    · obtain ⟨entry, hentry⟩ := Option.isSome_iff_exists.1 hcontains
      obtain ⟨value, _, hfound⟩ := h.find?_metadata ha hentry
      exact OrderedMap.contains_of_find? hfound
    · obtain ⟨value, hvalue⟩ := Option.isSome_iff_exists.1 hdefault
      exact h.contains_default ha rfl hvalue

namespace ItemTree

variable {t r a : ItemTree} {plugin : Plugin} {options : Options} {i : Item} {arity : Arity}
  {b c : Attribute}

/-! ### The schema of an item -/

/-- The arity brings an attribute of this name that has no default. -/
def LeavesOpen (arity : Arity) (key : String) : Prop :=
  ∃ c ∈ arityAttributes arity, c.name = key ∧ c.defaultValue = none

theorem leavesOpen_iff (hc : c ∈ arityAttributes arity) :
    LeavesOpen arity c.name ↔ c.defaultValue = none := by
  constructor
  · rintro ⟨d, hd, hname, hnone⟩
    have hsame := find?_reverse_arityAttributes hd
    rw [hname, find?_reverse_arityAttributes hc] at hsame
    cases hsame
    exact hnone
  · exact fun hnone => ⟨c, hc, rfl, hnone⟩

/-- Of the attributes that a plugin brings, the last one of a name is required if one that is
required has this name and none that is optional. -/
theorem find?_pluginAttributes (hb : b ∈ plugin.requiredAttributes i)
    (hoptional : ∀ o ∈ plugin.optionalAttributes i, o.name ≠ b.name) :
    ∃ c, (pluginAttributes plugin i).reverse.find? (fun a => a.name = b.name) = some c ∧
      c.name = b.name ∧ c.required := by
  have hmem : ({ b with required := true } : Attribute) ∈ (pluginAttributes plugin i).reverse :=
    List.mem_reverse.2 (List.mem_append_left _ (List.mem_map.2 ⟨b, hb, rfl⟩))
  obtain ⟨c, hc⟩ : ∃ c, (pluginAttributes plugin i).reverse.find? (fun a => a.name = b.name) =
      some c := Option.isSome_iff_exists.1 (List.find?_isSome.2 ⟨_, hmem, by simp⟩)
  have hname : c.name = b.name := by simpa using List.find?_some hc
  refine ⟨c, hc, hname, ?_⟩
  rcases List.mem_append.1 (List.mem_reverse.1 (List.mem_of_find?_eq_some hc)) with hc | hc
  · obtain ⟨_, _, rfl⟩ := List.mem_map.1 hc
    rfl
  · obtain ⟨o, ho, rfl⟩ := List.mem_map.1 hc
    exact absurd hname (hoptional o ho)

/-- What a plugin requires is required by the schema, unless the arity replaces it. -/
theorem find?_required (before : List Attribute) (hb : b ∈ plugin.requiredAttributes i)
    (hoptional : ∀ o ∈ plugin.optionalAttributes i, o.name ≠ b.name)
    (harity : ∀ c ∈ arityAttributes arity, c.name ≠ b.name) :
    ∃ c, (Schema.ofAttributes (before ++ pluginAttributes plugin i ++
      arityAttributes arity)).find? b.name = some c ∧ c.name = b.name ∧ c.required := by
  obtain ⟨c, hc, hname, hrequired⟩ := find?_pluginAttributes hb hoptional
  have hnone : (arityAttributes arity).reverse.find? (fun a => a.name = b.name) = none := by
    simpa using harity
  refine ⟨c, ?_, hname, hrequired⟩
  rw [Schema.find?_ofAttributes, List.reverse_append, List.reverse_append, List.find?_append, hnone,
    Option.none_or, List.find?_append, hc]
  rfl

/-- What a plugin has required of an item with such a schema is there once the item is admitted,
unless the arity leaves it open and it was not there before. -/
theorem contains_iff_of_required {j known typed j' : Item} {before : List Attribute}
    (h : Item.Admission j known typed j')
    (hschema : j.schema = Schema.ofAttributes
      (before ++ pluginAttributes plugin i ++ arityAttributes arity))
    (hb : b ∈ plugin.requiredAttributes i)
    (hoptional : ∀ o ∈ plugin.optionalAttributes i, o.name ≠ b.name) :
    j'.metadata.contains b.name ↔ (LeavesOpen arity b.name → j.metadata.contains b.name) := by
  by_cases harity : ∃ c ∈ arityAttributes arity, c.name = b.name
  · obtain ⟨c, hc, hname⟩ := harity
    have hnames : ∀ a ∈ j.schema.values, j.schema.find? a.name = some a := fun a ha => by
      rw [hschema] at ha ⊢
      exact Schema.find?_name ha
    have hfound : j.schema.find? c.name = some c := by
      rw [hschema]
      exact find?_ofAttributes_arity _ hc
    rw [← hname, h.contains_iff hnames hfound, leavesOpen_iff hc]
    cases c.defaultValue <;> simp
  · push Not at harity
    obtain ⟨c, hfound, hname, hrequired⟩ := find?_required before hb hoptional harity
    rw [← hschema] at hfound
    apply iff_of_true
    · obtain ⟨value, hvalue⟩ := h.exists_of_required hfound hname hrequired
      obtain ⟨entry, hentry, _⟩ := Option.map_eq_some_iff.1 hvalue
      exact OrderedMap.contains_of_find? hentry
    · rintro ⟨d, hd, hsame, _⟩
      exact absurd hsame (harity d hd)

/-! ### All together -/

/-- **Requirements.** Once a tree is resolved and admitted, an item that is neither the root nor an
extension has an entry for each attribute that the plugin required, and did not call optional as
well, when it was shown the item. Only where the arity brings an attribute of the same name without
a default, the entry is there just in case the resolution has left it. -/
theorem admitAll_required (h : t.Reachable) (hr : t.resolve plugin options = .ok r)
    (ha : r.admitAll plugin options = .ok a) :
    ∃ s, t.shown = .ok s ∧ ∀ x, x.index < a.size → x ≠ root → (a.item x).isExtension = false →
      ∀ b ∈ plugin.requiredAttributes (s.item x),
      (∀ o ∈ plugin.optionalAttributes (s.item x), o.name ≠ b.name) →
      ((a.item x).metadata.contains b.name ↔
        (LeavesOpen ((a.item x).arity.getD .one) b.name →
          (r.item x).metadata.contains b.name)) := by
  have hw := (resolve_ok h.wellFormed hr).2.wellFormed
  have hretyped := retyped_admitAll ha
  obtain ⟨s, hs, hschemas⟩ := schemas_of_resolve h.wellFormed hr
  refine ⟨s, hs, fun x hx hroot hext b hb hoptional => ?_⟩
  rw [hretyped.size] at hx
  rw [hretyped.field Item.isExtension fun _ _ _ => rfl] at hext
  rw [hretyped.field Item.arity fun _ _ _ => rfl]
  obtain ⟨p, hp, _⟩ := hw.rooted.parent x hx hroot
  have hparent : (r.item x).parent.isSome := by rw [hp]; rfl
  obtain ⟨kind, _, hschema⟩ := hschemas x (hasSchema_of_parent hw hparent hext)
  obtain ⟨known, typed, hadmission⟩ := item_admitAll hw ha hx hparent hext
  exact contains_iff_of_required hadmission hschema hb hoptional

/-- A plugin that requires a key of every item. -/
def keyKeeper : Plugin where
  name := "any"
  capabilities := .allElements
  requiredAttributes := fun _ => [{ name := "key", type := .string }]

/-- Many names without a key, and a label with one. -/
def keylessNames : ItemTree :=
  ((ofSource "").push root ((Item.declaration (some "names") "string").withArity .zeroOrMore)).push
    root ((Item.declaration (some "label") "string").withMetadata "key" (.text "first"))

/-- The tree is admitted, though there is no key on the names. -/
theorem keylessNames_admitted : keylessNames.Reachable ∧ ∃ r a,
    keylessNames.resolve keyKeeper {} = .ok r ∧ r.admitAll keyKeeper {} = .ok a ∧
    ¬(a.item ⟨1⟩).metadata.contains "key" ∧ (a.item ⟨2⟩).metadata.contains "key" := by
  have hreachable : keylessNames.Reachable :=
    ((Reachable.source "").push (p := root) (by decide)
      ((Item.Declared.declaration (some "names") "string").withArity .zeroOrMore)).push
      (p := root) (by decide)
      ((Item.Declared.declaration (some "label") "string").withMetadata "key" (.text "first"))
  have hfacts : (keylessNames.resolve keyKeeper {}).toOption.bind (fun r =>
      (r.admitAll keyKeeper {}).toOption.map fun a =>
        ((a.size, (a.item ⟨1⟩).isExtension, (a.item ⟨2⟩).isExtension),
          ((a.item ⟨1⟩).arity, (a.item ⟨2⟩).arity), (r.item ⟨1⟩).metadata.contains "key")) =
      some ((3, false, false), (some .zeroOrMore, some .one), false) := by decide +kernel
  obtain ⟨r, hr, hfacts⟩ := Option.bind_eq_some_iff.1 hfacts
  obtain ⟨a, ha, hfacts⟩ := Option.map_eq_some_iff.1 hfacts
  simp only [Prod.mk.injEq] at hfacts
  obtain ⟨⟨hsize, hext₁, hext₂⟩, ⟨harity₁, harity₂⟩, hnot⟩ := hfacts
  have hr := eq_ok_of_toOption hr
  have ha := eq_ok_of_toOption ha
  obtain ⟨s, _, hrequired⟩ := admitAll_required hreachable hr ha
  have hnames := hrequired ⟨1⟩ (by rw [hsize]; decide) (by decide) hext₁ _
    (List.mem_singleton_self _) (fun _ ho => absurd ho List.not_mem_nil)
  have hlabel := hrequired ⟨2⟩ (by rw [hsize]; decide) (by decide) hext₂ _
    (List.mem_singleton_self _) (fun _ ho => absurd ho List.not_mem_nil)
  rw [harity₁] at hnames
  rw [harity₂] at hlabel
  refine ⟨hreachable, r, a, hr, ha, fun hcontains => ?_, hlabel.2 ?_⟩
  · have hopen : LeavesOpen .zeroOrMore "key" := ⟨_, .tail _ (.head _), rfl, rfl⟩
    have hleft := hnames.1 hcontains hopen
    rw [hnot] at hleft
    cases hleft
  · rintro ⟨c, hc, _⟩
    cases hc

end ItemTree
end Schemata
