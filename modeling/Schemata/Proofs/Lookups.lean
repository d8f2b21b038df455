import Schemata.Proofs.Tree.Backlinks

/-! Names are bound to what is nearest.

Whatever has been bound before, a name is bound to what it stands for in the tree as it
was declared: a builtin type, or the item at the end of its path from the nearest scope
in which all of it matches. The pass fails for a name only if no scope matches. Every
reference it adds is noted at its target, and notes and references agree up to the end
of the resolution. -/
namespace Schemata.ItemTree

open Item

variable {t t' t'' : ItemTree} {x : ItemId} {plugin : Plugin} {options : Options}

/-! ### Whatever has been bound before -/

/-- Some references have been bound, of whichever items and in whichever order. -/
inductive PartlyBound (t : ItemTree) : ItemTree → Prop
  | declared : t.PartlyBound t
  | clear {t' : ItemTree} (h : t.PartlyBound t') (x : ItemId) :
    t.PartlyBound (t'.modify x cleared)
  | bind {t' t'' : ItemTree} (h : t.PartlyBound t') {x : ItemId} (hx : x.index < t'.size)
    {raw : RawReference} (hok : t'.bindReference x raw = .ok t'') : t.PartlyBound t''

theorem PartlyBound.sameScopes (h : t.PartlyBound t') (ht : t.Rooted) : t.SameScopes t' := by
  induction h with
  | declared => exact .refl ht
  | clear _ x ih => exact ih.trans (ih.rooted.sameScopes_modify keepsPlace_cleared)
  | bind _ hx hok ih =>
    exact ih.trans ((checks_bindReference ih.rooted hx (.refl ih.rooted) _).2 _ hok)

/-- Binding in `t'` goes by what names stand for in `t`. -/
structure BindsAs (t t' : ItemTree) (x : ItemId) : Prop where
  name : ∀ name location target, t.StandsFor x name target →
    t'.bindName x name location = .ok (t'.refer x target)
  unmatched : ∀ name location, t.Unmatched x name →
    t'.bindName x name location = .error ⟨(Cause.unresolvedReference name).at location, t'⟩
  alternative : ∀ a target, (t.withUnbound x a).StandsFor t.nextId a.name target →
    t'.bindAlternative x a = .ok ((t'.withUnbound x a).refer t'.nextId target)
  unmatchedAlternative : ∀ a, (t.withUnbound x a).Unmatched t.nextId a.name →
    t'.bindAlternative x a =
      .error ⟨(Cause.unresolvedReference a.name).at a.location, t'.withUnbound x a⟩

theorem Rooted.lookupUnder_eq_some_iff (ht : t.Rooted) (hx : x.index < t.size) (a : Alternative)
    {target : Target} : t.lookupUnder x a.name = some target ↔
      (t.withUnbound x a).StandsFor t.nextId a.name target := by
  have hrooted : (t.withUnbound x a).Rooted := (ht.sameScopes_pushAlternative hx a).rooted
  rw [← (SameScopes.refl ht).lookup_withUnbound ht hx, hrooted.lookup_eq_some_iff]
  rw [size_withUnbound]
  exact Nat.lt_succ_self _

theorem SameScopes.bindsAs (ht : t.Rooted) (hx : x.index < t.size) (h : t.SameScopes t') :
    t.BindsAs t' x where
  name name location target hname := by
    unfold ItemTree.bindName
    rw [h.lookup ht hx, (ht.lookup_eq_some_iff hx).2 hname]
  unmatched name location hname := by
    unfold ItemTree.bindName
    rw [h.lookup ht hx, (ht.lookup_eq_none_iff hx).2 hname]
  alternative a target hname := by
    rw [bindAlternative_eq]
    unfold ItemTree.bindName
    rw [h.lookup_withUnbound ht hx, (ht.lookupUnder_eq_some_iff hx a).2 hname]
  unmatchedAlternative a hname := by
    rw [bindAlternative_eq]
    unfold ItemTree.bindName
    rw [h.lookup_withUnbound ht hx, (ht.lookupUnder_eq_none_iff hx a).2 hname]

/-! ### Once all names are bound -/

/-- What an alternative that is written on `x` has become: an item under `x` that refers to what the
alternative's name stands for. -/
structure BoundAlternative (t t' : ItemTree) (x : ItemId) (a : Alternative) (c : ItemId) : Prop
    where
  new : t.size ≤ c.index
  parent : (t'.item c).parent = some x
  target : ∃ target, (t'.item c).references = [target] ∧ t'.StandsFor c a.name target ∧
    (t.withUnbound x a).StandsFor t.nextId a.name target

/-- All that is written on `x` is bound, in the order in which it is written, to what it stands for,
both before the pass and after it. -/
structure BoundNearest (t t' : ItemTree) (x : ItemId) : Prop where
  names : List.Forall₂
    (fun name target => t.StandsFor x name target ∧ t'.StandsFor x name target)
    (writtenNames (t.item x).rawReferences) (t'.item x).references
  alternatives : List.Forall₂ (t.BoundAlternative t' x)
    (writtenAlternatives (t.item x).rawReferences) (t'.item x).alternatives

theorem BoundFrom.boundNearest (h : t.BoundFrom t') (ht : t.Rooted) (hx : x.index < t.size)
    (hunbound : (t.item x).references = [] ∧ (t.item x).alternatives = []) :
    t.BoundNearest t' x := by
  obtain ⟨targets, ids, htargets, hids, hself⟩ := h.old x hx
  have hreferences : (t'.item x).references = targets := by
    have := congrArg Item.references hself
    simpa [withMeanings, unnoted, hunbound.1] using this
  have halternatives : (t'.item x).alternatives = ids := by
    have := congrArg Item.alternatives hself
    simpa [withMeanings, unnoted, hunbound.2] using this
  constructor
  · rw [hreferences]
    refine htargets.imp fun name target hname => ?_
    have hstands := (ht.lookup_eq_some_iff hx).1 hname
    exact ⟨hstands, (h.toSameScopes.standsFor_iff ht hx).2 hstands⟩
  · rw [halternatives]
    refine hids.imp fun a c hc => ?_
    obtain ⟨target, hname, hitem⟩ := hc.item
    have hparent : (t'.item c).parent = some x := congrArg Item.parent hitem
    have hlookup := h.toSameScopes.lookup_new ht hc.new hc.lt hparent hx a.name
    exact ⟨hc.new, hparent, target, congrArg Item.references hitem,
      (h.rooted.lookup_eq_some_iff hc.lt).1 (hlookup.trans hname),
      (ht.lookupUnder_eq_some_iff hx a).1 hname⟩

/-- What is new is an alternative that is written on an old item. -/
theorem BoundFrom.boundAlternative (h : t.BoundFrom t') (ht : t.Rooted) {c : ItemId}
    (hunbound : ∀ x, (t.item x).references = [] ∧ (t.item x).alternatives = [])
    (hle : t.size ≤ c.index) (hlt : c.index < t'.size) :
    ∃ x a, x.index < t.size ∧ t.BoundAlternative t' x a c := by
  obtain ⟨x, hx, hmem⟩ := h.new c hle hlt
  obtain ⟨a, _, hc⟩ :=
    exists_of_mem_right (h.boundNearest ht hx (hunbound x)).alternatives hmem
  exact ⟨x, a, hx, hc⟩

/-- No item refers to itself. -/
theorem BoundFrom.not_self (h : t.BoundFrom t') (ht : t.Rooted)
    (hunbound : ∀ x, (t.item x).references = [] ∧ (t.item x).alternatives = []) (x : ItemId) :
    .item x ∉ (t'.item x).references := by
  intro hmem
  by_cases hlt : x.index < t'.size
  · by_cases hx : x.index < t.size
    · obtain ⟨name, _, _, hstands⟩ :=
        exists_of_mem_right (h.boundNearest ht hx (hunbound x)).names hmem
      exact hstands.ne_self rfl
    · obtain ⟨p, a, _, hc⟩ := h.boundAlternative ht hunbound (Nat.le_of_not_lt hx) hlt
      obtain ⟨target, hreferences, hstands, _⟩ := hc.target
      rw [hreferences, List.mem_singleton] at hmem
      exact hstands.ne_self hmem.symm
  · rw [item_of_size_le (Nat.le_of_not_lt hlt)] at hmem
    exact List.not_mem_nil hmem

/-- **Names are bound to what is nearest, and notes are right.** Binding the names of a declared
tree fails exactly with the first fault in the order of the walk, if there is any: a reserved name,
or a name that matches in no scope. Else everything written is bound, in order, to what it stands
for; nothing refers to itself; and every item is noted where it refers to, as often as it does. At
any moment of the binding, whatever has been bound before, names are bound by what they stand for in
the declared tree. The notes are still right when a resolution ends. -/
theorem bindNames_nearest (h : t.Declared) :
    (∀ f, (∃ left, t.bindNames = .error ⟨f, left⟩) ↔
      t.FirstFault (t.walk.flatMap t.writings) f) ∧
    (∀ t', t.bindNames = .ok t' →
      (∀ x, x.index < t.size → t.BoundNearest t' x) ∧
      (∀ c, t.size ≤ c.index → c.index < t'.size →
        ∃ x a, x.index < t.size ∧ t.BoundAlternative t' x a c) ∧
      (∀ x, .item x ∉ (t'.item x).references) ∧ t'.Backlinked) ∧
    (∀ t', t.PartlyBound t' → ∀ x, x.index < t.size → t.BindsAs t' x) ∧
    ∀ plugin options r, t.resolve plugin options = .ok r → r.Backlinked := by
  have ht : t.Rooted := h.reachable.wellFormed.rooted
  refine ⟨fun f => (checks_bindNames ht).error_iff, fun t' hok => ?_, fun t' hp x hx => ?_,
    fun plugin options r hr => ?_⟩
  · have hbound := boundFrom_of_bindNames ht hok
    have hnoted := h.notedSoFar_bindNames
    rw [hok] at hnoted
    exact ⟨fun x hx => hbound.boundNearest ht hx (h.unbound x),
      fun c => hbound.boundAlternative ht h.unbound, hbound.not_self ht h.unbound,
      hnoted.backlinked⟩
  · exact (hp.sameScopes ht).bindsAs ht hx
  · have hnoted := h.backlinked_resolve plugin options
    rw [hr] at hnoted
    exact hnoted

/-- The inner scope has the first name of a path only, the outer one all of it. -/
def partlyShadowed : ItemTree :=
  (((((ofSource "").push root (Item.object (some "a"))).push ⟨1⟩
    (Item.declaration (some "c") "string")).push root (Item.object (some "inner"))).push ⟨3⟩
    (Item.object (some "a"))).push ⟨3⟩ (Item.declaration (some "user") "a.c")

/-- The path leads through the outer scope to the second item. -/
theorem partlyShadowed_bound :
    partlyShadowed.Declared ∧ ∃ t', partlyShadowed.bindNames = .ok t' ∧
      (t'.item ⟨5⟩).references = [.item ⟨2⟩] ∧
      partlyShadowed.StandsFor ⟨5⟩ "a.c" (.item ⟨2⟩) ∧
      (∀ y, ¬partlyShadowed.Descends ⟨5⟩ ⟨3⟩ ["a", "c"] y) ∧
      (t'.item ⟨2⟩).referencedBy.count ⟨5⟩ = 1 ∧ t'.Backlinked := by
  have hdeclared : partlyShadowed.Declared :=
    (((((Declared.source "").push (p := root) (by decide) (.object (some "a"))).push (p := ⟨1⟩)
      (by decide) (.declaration (some "c") "string")).push (p := root) (by decide)
      (.object (some "inner"))).push (p := ⟨3⟩) (by decide) (.object (some "a"))).push (p := ⟨3⟩)
      (by decide) (.declaration (some "user") "a.c")
  have hfacts : partlyShadowed.bindNames.toOption.map (fun t' => (t'.item ⟨5⟩).references) =
      some [.item ⟨2⟩] := by decide +kernel
  have hinner : partlyShadowed.followPath ⟨5⟩ ⟨3⟩ ["a", "c"] = none := by decide +kernel
  have hwritten : writtenNames (partlyShadowed.item ⟨5⟩).rawReferences = ["a.c"] := by
    decide +kernel
  refine ⟨hdeclared, ?_⟩
  cases hok : partlyShadowed.bindNames with
  | error e =>
    rw [hok] at hfacts
    cases hfacts
  | ok t' =>
    rw [hok] at hfacts
    have hreferences : (t'.item ⟨5⟩).references = [.item ⟨2⟩] := Option.some.inj hfacts
    obtain ⟨hnearest, _, _, hnoted⟩ := (bindNames_nearest hdeclared).2.1 t' hok
    have hnames := (hnearest ⟨5⟩ (by decide)).names
    rw [hwritten, hreferences] at hnames
    refine ⟨t', rfl, hreferences, (List.forall₂_cons.1 hnames).1.1, followPath_eq_none_iff.1 hinner,
      ?_, hnoted⟩
    rw [hnoted, hreferences]
    exact List.count_singleton_self

end Schemata.ItemTree
